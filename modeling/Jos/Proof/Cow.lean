import Jos.Proof.Boot
import Jos.Proof.FaultFrame
import Jos.Spec.Cow

/-!
# The copy-on-write handler

`pgfault` should repair writes to copy-on-write pages and panic on every other fault. Its test is
`!(err & FEC_WR) && (uvpt[PPN(addr)] & PTE_COW)`, so that it panics on reads of copy-on-write pages
only; for all other faults it goes on to copy the page and to map the copy as writable.
`cowRight_iff` says for which faults it does the right thing.

`pgfaultCopy_cases` is the run behind the test: it begins by mapping a fresh page at `PFTEMP`, so
that a panic further on has changed a mapping already.
-/

namespace Jos

open Lib

variable {R : Roots} {m m' m₁ : Pmap} {fl fl' : List ℕ} {r t p q n : ℕ} {va va' dst src addr : VA}
variable {e cur : EnvIdx} {k k' : Kernel} {v old : PTE} {x y : Translation} {perm : BitVec 32}

/-! ## Copying a page -/

/-- An address that user programs may read. -/
def UserReads (m : Pmap) (r : ℕ) (va : VA) : Prop := ∃ x, translate m r va = some x ∧ x.user = true

theorem wordIx_at (hal : va.toNat % 4096 = 0) (hi : i < 512) :
    (wordIx (va + BitVec.ofNat 64 (8 * i))).val = i := by
  unfold wordIx
  dsimp only
  rw [BitVec.toNat_add, BitVec.toNat_ofNat]
  omega

theorem translate_word (hal : va.toNat % 4096 = 0) (hi : i < 512) :
    translate m r (va + BitVec.ofNat 64 (8 * i)) = translate m r va := by
  apply translate_vpn
  apply vpn_page
  rw [BitVec.toNat_add, BitVec.toNat_ofNat]
  have := va.isLt
  omega

/-- The state after the first `n` words of page `q` are copied to page `p`. -/
def copiedTo (m : Pmap) (p q n : ℕ) : Pmap :=
  { m with mem := fun t j => if t = p ∧ j.val < n then m.mem q j else m.mem t j }

theorem copiedTo_zero : copiedTo m p q 0 = m := by
  unfold copiedTo
  simp only [Nat.not_lt_zero, and_false, if_false]

theorem copiedTo_other (h : t ≠ p) : (copiedTo m p q n).mem t = m.mem t := by
  funext j
  exact if_neg fun hc => h hc.1

/-- Page `p` is no table that the walk of an address reads. -/
def NoTable (m : Pmap) (r : ℕ) (va : VA) (p : ℕ) : Prop := ∀ w ∈ walkWords m r (indices va), w.1 ≠ p

theorem copiedTo_translate (h : NoTable m r va p) : translate (copiedTo m p q n) r va = translate m r va := by
  refine translate_of_entries (entries_words fun w hw => ?_).1
  rw [copiedTo_other (h w hw)]

/-- One word. -/
theorem moveWord_eq (hx : translate m r src = some x) (hxu : x.user = true) (hy : translate m r dst = some y)
    (hyw : y.user = true ∧ y.writeable = true) (hs : NoTable m r src (ppn y.pte)) (hd : NoTable m r dst (ppn y.pte))
    (hsa : src.toNat % 4096 = 0) (hda : dst.toNat % 4096 = 0) (hn : n < 512) :
    moveWord r dst src (copiedTo m (ppn y.pte) (ppn x.pte) n) n =
      some (copiedTo m (ppn y.pte) (ppn x.pte) (n + 1)) := by
  unfold moveWord loadWord
  rw [translate_word hsa hn, copiedTo_translate hs, hx]
  simp only [Option.bind_eq_bind, Option.bind_some, hxu, if_true]
  rw [translate_word hda hn, copiedTo_translate hd, hy]
  simp only [Option.bind_some, hyw.1, hyw.2, Bool.and_self, if_true, Option.some.injEq]
  have h1 : wordIx (src + BitVec.ofNat 64 (8 * n)) = ⟨n, hn⟩ := Fin.ext (wordIx_at hsa hn)
  have h2 : wordIx (dst + BitVec.ofNat 64 (8 * n)) = ⟨n, hn⟩ := Fin.ext (wordIx_at hda hn)
  -- word `n` of the source has not been overwritten
  have h3 : (copiedTo m (ppn y.pte) (ppn x.pte) n).mem (ppn x.pte) ⟨n, hn⟩ = m.mem (ppn x.pte) ⟨n, hn⟩ :=
    if_neg fun hc => lt_irrefl _ hc.2
  rw [h1, h2, h3]
  unfold copiedTo Pmap.write
  congr 1
  funext t j
  by_cases ht : t = ppn y.pte
  · subst ht
    by_cases hj : j = ⟨n, hn⟩
    · subst hj
      simp
    · have h4 : j.val ≠ n := fun h => hj (Fin.ext h)
      have h5 : j.val < n + 1 ↔ j.val < n := by omega
      simp only [hj, h5, and_false, if_false]
  · simp only [ht, false_and, if_false]

/-- **`memmove`** of a page. -/
theorem memmovePage_eq (hx : translate m r src = some x) (hxu : x.user = true) (hy : translate m r dst = some y)
    (hyw : y.user = true ∧ y.writeable = true) (hs : NoTable m r src (ppn y.pte)) (hd : NoTable m r dst (ppn y.pte))
    (hsa : src.toNat % 4096 = 0) (hda : dst.toNat % 4096 = 0) :
    memmovePage m r dst src = some (copiedTo m (ppn y.pte) (ppn x.pte) 512) := by
  have hrun : ∀ n ≤ 512, (List.range n).foldlM (moveWord r dst src) m =
      some (copiedTo m (ppn y.pte) (ppn x.pte) n) := by
    intro n hn
    induction n with
    | zero =>
      rw [copiedTo_zero]
      rfl
    | succ n ih =>
      rw [List.range_succ, List.foldlM_append, ih (by omega)]
      change Option.bind _ _ = _
      rw [Option.bind_some, List.foldlM_cons, moveWord_eq hx hxu hy hyw hs hd hsa hda (by omega)]
      rfl
  exact hrun 512 le_rfl

/-- Without the access, it faults at the first word. -/
theorem memmovePage_some (h : memmovePage m r dst src = some m') : UserReads m r src ∧ UserWrites m r dst := by
  unfold memmovePage at h
  rw [List.range_succ_eq_map, List.foldlM_cons] at h
  obtain ⟨m₁, h, -⟩ := Option.bind_eq_some_iff.1 h
  unfold moveWord loadWord at h
  have h0 : BitVec.ofNat 64 (8 * 0) = 0#64 := rfl
  rw [h0, BitVec.add_zero, BitVec.add_zero] at h
  obtain ⟨w, h1, h⟩ := Option.bind_eq_some_iff.1 h
  obtain ⟨x, hx, h1⟩ := Option.bind_eq_some_iff.1 h1
  obtain ⟨y, hy, h⟩ := Option.bind_eq_some_iff.1 h
  split at h1
  · rename_i hu
    split at h
    · rename_i hw
      rw [Bool.and_eq_true] at hw
      exact ⟨⟨x, hx, hu⟩, y, hy, hw⟩
    · cases h
  · cases h1

/-- Wherever it copies from, it writes to one page only. -/
theorem memmovePage_into (hy : translate m r dst = some y) (hd : NoTable m r dst (ppn y.pte))
    (hda : dst.toNat % 4096 = 0) (h : memmovePage m r dst src = some m') :
    ∃ g, m' = { m with mem := g } ∧ ∀ t ≠ ppn y.pte, g t = m.mem t := by
  have hrun : ∀ n ≤ 512, ∀ m₁, (List.range n).foldlM (moveWord r dst src) m = some m₁ →
      ∃ g, m₁ = { m with mem := g } ∧ ∀ t ≠ ppn y.pte, g t = m.mem t := by
    intro n
    induction n with
    | zero =>
      intro _ m₁ h
      cases h
      exact ⟨m.mem, rfl, fun t ht => rfl⟩
    | succ n ih =>
      intro hn m₁ h
      rw [List.range_succ, List.foldlM_append] at h
      obtain ⟨m₂, h1, h⟩ := Option.bind_eq_some_iff.1 h
      obtain ⟨g, rfl, hg⟩ := ih (by omega) m₂ h1
      rw [List.foldlM_cons] at h
      obtain ⟨m₃, h2, h⟩ := Option.bind_eq_some_iff.1 h
      cases h
      unfold moveWord at h2
      obtain ⟨w, -, h2⟩ := Option.bind_eq_some_iff.1 h2
      obtain ⟨z, hz, h2⟩ := Option.bind_eq_some_iff.1 h2
      -- the walk of the destination reads none of the words that are written
      have h3 : translate { m with mem := g } r (dst + BitVec.ofNat 64 (8 * n)) = translate m r dst := by
        rw [translate_word hda (by omega)]
        refine translate_of_entries (entries_words fun w hw => ?_).1
        exact congrFun (hg _ (hd w hw)) _
      rw [h3, hy] at hz
      cases hz
      split at h2
      · cases h2
        refine ⟨_, rfl, fun t ht => ?_⟩
        rw [← hg t ht]
        funext j
        exact if_neg fun hc => ht hc.1
      · cases h2
  exact hrun 512 le_rfl m' h

/-- What a translation allows, and what the entries on the way to it do. -/
theorem translate_open (h : translate m r va = some x) : x.user = true ∧ x.writeable = true ↔
    OpenWalk m r (path va) ∧ flag x.pte pteW = true ∧ flag x.pte pteU = true := by
  obtain ⟨e₄, h4, h⟩ := Option.bind_eq_some_iff.1 h
  obtain ⟨rfl, p4⟩ := presentAt_eq_some.1 h4
  obtain ⟨e₃, h3, h⟩ := Option.bind_eq_some_iff.1 h
  obtain ⟨rfl, p3⟩ := presentAt_eq_some.1 h3
  obtain ⟨e₂, h2, h⟩ := Option.bind_eq_some_iff.1 h
  obtain ⟨rfl, p2⟩ := presentAt_eq_some.1 h2
  obtain ⟨e₁, -, h⟩ := Option.bind_eq_some_iff.1 h
  cases h
  have hnil : ∀ t, OpenWalk m t [] := fun t e he => absurd he List.not_mem_nil
  unfold path
  rw [openWalk_cons, openWalk_cons, openWalk_cons]
  simp only [p4, p3, p2, true_implies, hnil, and_true, Bool.and_eq_true]
  constructor
  · rintro ⟨⟨⟨⟨u4, u3⟩, u2⟩, u1⟩, ⟨⟨w4, w3⟩, w2⟩, w1⟩
    exact ⟨⟨⟨w4, u4⟩, ⟨w3, u3⟩, w2, u2⟩, w1, u1⟩
  · rintro ⟨⟨⟨w4, u4⟩, ⟨w3, u3⟩, w2, u2⟩, w1, u1⟩
    exact ⟨⟨⟨⟨u4, u3⟩, u2⟩, u1⟩, ⟨⟨w4, w3⟩, w2⟩, w1⟩

/-! ## Kernel calls -/

theorem Sound.inv (h : Sound R m fl) :
    Inv Set.univ (fun v => view R m (.kern, v)) (fun _ => True) R m fl where
  sound := h
  free := fun _ _ => trivial
  target := fun _ _ _ => trivial
  node := fun _ _ _ _ => trivial
  kern := fun _ _ => rfl
  perm := fun _ _ _ _ => trivial

/-- **`page_insert`** below `UTOP`, with enough free pages: what it does to the mappings of all
environments, and to the tables of this one. -/
theorem Sound.insert (h : Sound R m fl) (hr : R (.env e) = some r) (hva : va < utop) (hpp : Mappable R m fl p)
    (hperm : PermOk perm) (hm : missingTables m r va ≤ fl.length) : ∃ m' fl',
      Jos.pageInsert m r p va perm = some (0, m') ∧ Sound R m' fl' ∧ Inserts R e va p perm m fl m' fl' ∧
        Inserted {i | i ≠ 2} m m' fl r p va perm := by
  rcases h.pageInsert_cases perm hr hva hpp with ⟨hlt, -⟩ | ⟨-, m', fl', h1, h2⟩
  · omega
  · obtain ⟨x, m'', h3, h4⟩ := pageInsert_exact (h.wf.treeOk hr) (pml4_below hva) hpp.notFree hpp.notMax
      fun v hv => by
        rw [h.wf.leafEntry_view hr hva] at hv
        have h5 := h.ref_pos (user_vpn hva) hv
        refine ⟨(h.wf.leaf _ v (user_vpn hva) hv).1, fun h6 => ?_⟩
        rw [h6] at h5
        exact absurd h5 (by decide)
    rw [h1] at h3
    cases h3
    rcases h4 with ⟨-, h4⟩ | ⟨h4, -⟩
    · exact ⟨m', fl', h1, (h2.inv h.inv hva trivial hperm trivial).sound, h2, h4⟩
    · exact absurd h4 (by decide)

theorem pftemp_below : pftemp < utop ∧ pftemp &&& 0xFFF = 0 := by decide

theorem cowPerm_ok : PermOk cowPerm := by decide

/-- The page that `PFTEMP` is in, in the address space of `cur`. -/
abbrev tempPage (cur : EnvIdx) : Owner × Vpn := (ownerOf cur pftemp, vpn pftemp)

/-- **What the first call leaves**: a page that was free is mapped at `PFTEMP`. -/
structure Alloced (R : Roots) (m m₁ : Pmap) (r : ℕ) (cur : EnvIdx) (fl fl' : List ℕ) (p : ℕ) : Prop where
  sound : Sound R m₁ fl'
  free : p ∈ fl
  view : view R m₁ = Function.update (view R m) (tempPage cur) (some (mkPte p cowPerm))
  once : (m₁.pages p).ppRef = 1
  others : ∀ va, pml4 va ≠ 2 → vpn va ≠ vpn pftemp → translate m₁ r va = translate m r va
  access : OpenWalk m₁ r (path pftemp) ↔ OpenWalk m r (path pftemp)
  off : ∀ q, ¬ (tables R m).Node q → q ∉ fl → m₁.mem q = m.mem q
  boot : m₁.bootPml4e = m.bootPml4e

theorem missing_taken (h : Wf R m (p :: fl)) (hr : R (.env e) = some r) (hva : va < utop) :
    missingTables (taken m true p) r va = missingTables m r va := by
  have ht := h.treeOk hr
  refine missing_frame (S := {i | i ≠ 2}) (π := []) (fun π t hπ => ?_) tableAt_root (inSlots_path (pml4_below hva))
  funext j
  apply taken_mem_of_ne
  rintro rfl
  exact ht.notFree _ _ hπ List.mem_cons_self

/-- `sys_page_alloc` at `PFTEMP`, with too few free pages. -/
theorem cow_alloc_short (h : Sound (roots k) k.pm fl) (hc : k.Live cur) (hr : (k.envs cur).envPml4e = some r)
    (hm : fl.length ≤ missingTables k.pm r pftemp) : ∃ m',
      sysPageAlloc k cur 0 pftemp cowPerm = some (-eNoMem, k.setPm m') ∧ Restored k.pm m' fl := by
  have hroot : roots k (.env cur) = some r := by rw [roots_env hc, hr]
  rw [sysPageAlloc_work (e := cur) rfl pftemp_below.1 pftemp_below.2 cowPerm_ok]
  unfold allocPage
  cases fl with
  | nil =>
    rw [pageAlloc_nil h.wf.free]
    exact ⟨k.pm, rfl, .refl⟩
  | cons p fl =>
    rw [List.length_cons, ← missing_taken h.wf hroot pftemp_below.1] at hm
    obtain ⟨m₁, h1, h2⟩ : ∃ m₁, Jos.pageInsert (taken k.pm true p) r p pftemp cowPerm = some (-eNoMem, m₁) ∧
        Restored (taken k.pm true p) m₁ fl := (h.taken true).wf.pageInsert_short hroot pftemp_below.1 (by omega)
    obtain ⟨h3, h4⟩ := restored_freed h.wf.free h2
    refine ⟨freed m₁ p, ?_, h4⟩
    rw [pageAlloc_cons h.wf.free]
    simp [hr, h1, h3, eNoMem]

/-- `sys_page_alloc` at `PFTEMP`, with enough. -/
theorem cow_alloc (h : Sound (roots k) k.pm fl) (hc : k.Live cur) (hr : (k.envs cur).envPml4e = some r)
    (hm : missingTables k.pm r pftemp < fl.length) : ∃ m₁ fl' p,
      sysPageAlloc k cur 0 pftemp cowPerm = some (0, k.setPm m₁) ∧ Alloced (roots k) k.pm m₁ r cur fl fl' p := by
  have hroot : roots k (.env cur) = some r := by rw [roots_env hc, hr]
  cases fl with
  | nil => simp at hm
  | cons p fl =>
    rw [List.length_cons, ← missing_taken h.wf hroot pftemp_below.1] at hm
    have ht := h.taken true
    have hmap := h.inv.mappable_taken true
    obtain ⟨hwt, hat, hview⟩ := h.wf.taken true
    obtain ⟨m₁, fl', h1, h2, h3, h4⟩ := ht.insert hroot pftemp_below.1 hmap cowPerm_ok (by omega)
    have hpf : p ∉ fl := (List.nodup_cons.1 h.wf.free.nodup).1
    have hnode : ¬ (tables (roots k) k.pm).Node p := h.wf.free_node p List.mem_cons_self
    have hmem : ∀ π t, TableAt {i | i ≠ 2} r k.pm π t → (taken k.pm true p).mem t = k.pm.mem t := by
      intro π t hπ
      funext j
      apply taken_mem_of_ne
      rintro rfl
      exact (h.wf.treeOk hroot).notFree _ _ hπ List.mem_cons_self
    refine ⟨m₁, fl', p, ?_, h2, List.mem_cons_self, ?_, ?_, fun va h5 h6 => ?_, ?_, fun q hq hqf => ?_, ?_⟩
    · rw [sysPageAlloc_work (e := cur) rfl pftemp_below.1 pftemp_below.2 cowPerm_ok]
      unfold allocPage
      rw [pageAlloc_cons h.wf.free]
      simp [hr, h1]
    · rw [h3.view_eq ht pftemp_below.1 cowPerm_ok, hview]
    · -- it was not mapped, and not counted
      obtain ⟨new, rest, hlist, -, -, -, -, href⟩ := h4.pages
      have h5 := href p fun hn => hpf (by rw [hlist]; exact List.mem_append_left _ hn)
      have h6 : (leafEntry (taken k.pm true p) r pftemp).map ppn ≠ some p := by
        intro hp
        obtain ⟨v, hv, hvp⟩ := Option.map_eq_some_iff.1 hp
        rw [hwt.leafEntry_view hroot pftemp_below.1, hview] at hv
        have h7 := (h.wf.leaf _ v (user_vpn pftemp_below.1) hv).2.1
        rw [hvp] at h7
        exact h7 List.mem_cons_self
      rw [if_neg h6, if_pos rfl, taken_ref, h.wf.free.ref p List.mem_cons_self] at h5
      exact BitVec.eq_of_toNat_eq h5
    · obtain ⟨-, -, h7⟩ := (h.wf.treeOk hroot).off hmem hwt.free
        (fun π t hπ hf => (h.wf.treeOk hroot).notFree π t hπ (List.mem_cons_of_mem _ hf)) taken_npages
      rw [h4.others va h5 h6, h7 va h5]
    · refine h4.access.trans (openWalk_frame (S := {i | i ≠ 2}) (π := []) (fun π t i hπ _ => ?_) tableAt_root
        (inSlots_path (pml4_below pftemp_below.1)))
      rw [hmem π t hπ]
    · rw [List.mem_cons, not_or] at hqf
      rw [h3.off (fun π hπ => hq ((hat _ _ _).1 hπ).node) hqf.2]
      funext j
      exact taken_mem_of_ne hqf.1
    · rw [h3.boot, taken_boot]


theorem Alloced.ppn (h : Alloced R m m₁ r cur fl fl' p) (hw : Sound R m fl) : Jos.ppn (mkPte p cowPerm) = p := by
  have h1 := hw.wf.npages_le
  have h2 := hw.wf.free.lt p h.free
  exact ppn_mkPte (by omega) cowPerm_ok

/-- The new page at `PFTEMP`: user programs may write it if the tables above allow it. -/
theorem Alloced.temp (h : Alloced (roots k) k.pm m₁ r cur fl fl' p) (hw : Sound (roots k) k.pm fl)
    (hroot : roots k (.env cur) = some r) : ∃ y, translate m₁ r pftemp = some y ∧ Jos.ppn y.pte = p ∧
      ¬ (tables (roots k) m₁).Node p ∧ (UserWrites m₁ r pftemp ↔ OpenWalk k.pm r (path pftemp)) := by
  have hppn := h.ppn hw
  have hv : Jos.view (roots k) m₁ (tempPage cur) = some (mkPte p cowPerm) := by
    rw [h.view, Function.update_self]
  have hleaf := (h.sound.wf.leafEntry_view hroot pftemp_below.1).trans hv
  obtain ⟨y, hy, hyp⟩ := Option.map_eq_some_iff.1 hleaf
  have hp : Jos.ppn y.pte = p := by
    rw [hyp, hppn]
  refine ⟨y, hy, hp, ?_, ?_⟩
  · have h1 := (h.sound.wf.leaf _ _ (user_vpn pftemp_below.1) hv).2.2
    rwa [hppn] at h1
  · rw [← h.access]
    have h1 := translate_open hy
    rw [hyp, flag_mkPte_w, flag_mkPte_u] at h1
    constructor
    · rintro ⟨z, hz, hzw⟩
      rw [hy] at hz
      cases hz
      exact (h1.1 hzw).1
    · intro ho
      exact ⟨y, hy, h1.2 ⟨ho, by decide, by decide⟩⟩

theorem Kernel.setPm_setPm : (k.setPm m).setPm m' = k.setPm m' := rfl

/-- The copy changes no mapping. -/
theorem Sound.filled {g : ℕ → Idx → BitVec 64} (h : Sound R m fl) (hp : ¬ (tables R m).Node p)
    (hg : ∀ t ≠ p, g t = m.mem t) :
    Sound R { m with mem := g } fl ∧ view R { m with mem := g } = view R m := by
  have hnode : ∀ t, (tables R m).Node t → g t = m.mem t := fun t ht => hg t fun hc => hp (hc ▸ ht)
  obtain ⟨h1, -, h2⟩ : Wf R { m with mem := g } fl ∧
      (∀ o π n, (tables R { m with mem := g }).At o π n ↔ (tables R m).At o π n) ∧
        view R { m with mem := g } = view R m :=
    h.wf.of_off hnode (h.wf.free.congr rfl rfl rfl) (fun _ h => h) rfl rfl fun _ _ => rfl
  refine ⟨⟨h1, fun q => ?_⟩, h2⟩
  rw [targets_congr h2]
  exact h.counted q

/-- `sys_page_map` of the page at `PFTEMP` to an address that is mapped. -/
theorem cow_map (h : Sound R k.pm fl) (hroot : R (.env cur) = some r) (hr : (k.envs cur).envPml4e = some r)
    (hva : va < utop ∧ va &&& 0xFFF = 0) (hv : leafEntry k.pm r pftemp = some v) (hw : flag v pteW = true)
    (hmax : (k.pm.pages (ppn v)).ppRef ≠ 0xFFFF) (hold : leafEntry k.pm r va = some old) : ∃ m' fl',
      sysPageMap k cur 0 pftemp 0 va cowPerm = some (0, k.setPm m') ∧
        Sound R m' fl' ∧ Inserts R cur va (ppn v) cowPerm k.pm fl m' fl' := by
  have hm : missingTables k.pm r va = 0 := by
    by_contra hc
    rw [leafEntry_missing hc] at hold
    cases hold
  have hv' := hv
  rw [h.wf.leafEntry_view hroot pftemp_below.1] at hv'
  have hmap := h.mappable (user_vpn pftemp_below.1) hv' hmax
  obtain ⟨m', fl', h1, h2, h3, -⟩ := h.insert hroot hva.1 hmap cowPerm_ok (by omega)
  obtain ⟨q, h4, -, h5, -⟩ := h.wf.pageLookup_mapped hroot pftemp_below.1 hv
  refine ⟨m', fl', ?_, h2, h3⟩
  have hid : envid2env k cur 0 true = some cur := rfl
  rw [sysPageMap_work hid hid pftemp_below hva cowPerm_ok]
  unfold transferPage
  simp [hr, h4, h5, hw, h1]

/-- `sys_page_unmap` of it. -/
theorem cow_unmap (h : Sound R k.pm fl) (hroot : R (.env cur) = some r) (hr : (k.envs cur).envPml4e = some r)
    (hv : leafEntry k.pm r pftemp = some v) : ∃ m' fl',
      sysPageUnmap k cur 0 pftemp = some (0, k.setPm m') ∧ Sound R m' fl' ∧
        view R m' = Function.update (view R k.pm) (tempPage cur) none ∧ m'.bootPml4e = k.pm.bootPml4e ∧
          ∀ q, ¬ (tables R k.pm).Node q → m'.mem q = k.pm.mem q := by
  obtain ⟨q, h1, h2, h3⟩ := h.wf.mapped_at hroot pftemp_below.1 hv
  subst h2
  have hrm := h.wf.pageRemove_mapped hroot pftemp_below.1 h1 h3
  refine ⟨_, _, ?_, h.removeAt h1 (user_vpn pftemp_below.1) h3, (view_removeAt h.wf h1).2, removeAt_boot, ?_⟩
  · unfold sysPageUnmap
    have h4 : envid2env k cur 0 true = some cur := rfl
    have h5 : ¬ (pftemp ≥ utop ∨ pftemp &&& 0xFFF ≠ 0) := addr_ok pftemp_below
    simp only [h4, if_neg h5, hr, hrm, Option.bind_eq_bind, Option.bind_some]
  · intro t ht
    rw [removeAt_mem]
    funext j
    apply Pmap.write_mem_of_ne
    rintro ⟨rfl, -⟩
    exact ht h1.node

/-! ## The run behind the test -/

theorem vpn_roundDown : vpn (roundDown addr pgsize) = vpn addr := by
  apply vpn_page
  rw [roundDown_toNat]
  omega

theorem roundDown_below : roundDown addr pgsize < utop ↔ addr < utop := by
  rw [BitVec.lt_def, BitVec.lt_def, roundDown_toNat, utop_toNat]
  omega

theorem roundDown_aligned : roundDown addr pgsize &&& 0xFFF = 0 := by
  apply BitVec.eq_of_toNat_eq
  rw [BitVec.toNat_and, roundDown_toNat]
  have h1 : (0xFFF : BitVec 64).toNat = 2 ^ 12 - 1 := rfl
  rw [h1, Nat.and_two_pow_sub_one_eq_mod]
  have h2 : (0 : BitVec 64).toNat = 0 := rfl
  omega

/-- The faulting page, in the address space of `cur`. -/
abbrev faultPage (cur : EnvIdx) (addr : VA) : Owner × Vpn := (ownerOf cur addr, vpn addr)

theorem ownerOf_vpn (h : vpn va = vpn va') : ownerOf e va = ownerOf e va' := by
  have h1 : pml4 va = pml4 va' := congrArg Prod.fst h
  unfold ownerOf
  rw [h1]

/-- **How the handler ends**, once it has a page at `PFTEMP`. -/
theorem pgfaultCopy_cases (addr : VA) (h : Sound (roots k) k.pm fl) (hc : k.Live cur)
    (hr : (k.envs cur).envPml4e = some r) (hm : missingTables k.pm r pftemp < fl.length) : ∃ m₁ fl₁ p,
      Alloced (roots k) k.pm m₁ r cur fl fl₁ p ∧
      ((memmovePage m₁ r pftemp (roundDown addr pgsize) = none ∧
          pgfaultCopy k cur addr = some (.fault (k.setPm m₁))) ∨
        ∃ m₂, memmovePage m₁ r pftemp (roundDown addr pgsize) = some m₂ ∧
          ((¬ addr < utop ∧ pgfaultCopy k cur addr = some (.panic (k.setPm m₂)) ∧
              view (roots k) m₂ = view (roots k) m₁ ∧ m₂.bootPml4e = m₁.bootPml4e) ∨
            (addr < utop ∧ ∃ m₄ fl₄, pgfaultCopy k cur addr = some (.ret (k.setPm m₄)) ∧
              Sound (roots k) m₄ fl₄ ∧ m₄.mem p = m₂.mem p ∧
              view (roots k) m₄ = Function.update (Function.update (view (roots k) m₁)
                (faultPage cur addr) (some (mkPte p cowPerm))) (tempPage cur) none))) := by
  have hroot : roots k (.env cur) = some r := by rw [roots_env hc, hr]
  obtain ⟨m₁, fl₁, p, hcall, ha⟩ := cow_alloc h hc hr hm
  refine ⟨m₁, fl₁, p, ha, ?_⟩
  obtain ⟨y, hy, hyp, hpn, -⟩ := ha.temp h hroot
  have hnt : NoTable m₁ r pftemp (ppn y.pte) := fun w hw hc =>
    hpn (hyp ▸ hc ▸ ha.sound.wf.walk_node hroot pftemp_below.1 hy w hw)
  unfold pgfaultCopy
  rw [hcall]
  simp only [Option.bind_eq_bind, Option.bind_some, if_true, Kernel.setPm_envs, Kernel.setPm_pm, hr]
  cases hmv : memmovePage m₁ r pftemp (roundDown addr pgsize) with
  | none => exact Or.inl ⟨rfl, rfl⟩
  | some m₂ =>
    refine Or.inr ⟨m₂, rfl, ?_⟩
    obtain ⟨hs₂, hv₂, hp₂, hb₂⟩ : Sound (roots k) m₂ fl₁ ∧ view (roots k) m₂ = view (roots k) m₁ ∧
        m₂.pages = m₁.pages ∧ m₂.bootPml4e = m₁.bootPml4e := by
      obtain ⟨g, rfl, hg⟩ := memmovePage_into hy hnt (by decide) hmv
      rw [hyp] at hg
      exact ⟨(ha.sound.filled hpn hg).1, (ha.sound.filled hpn hg).2, rfl, rfl⟩
    simp only
    by_cases hva : addr < utop
    · right
      have hb := roundDown_below.2 hva
      have hppn := ha.ppn h
      have htemp : view (roots k) m₂ (tempPage cur) = some (mkPte p cowPerm) := by
        rw [hv₂, ha.view, Function.update_self]
      have hleaf := (hs₂.wf.leafEntry_view hroot pftemp_below.1).trans htemp
      obtain ⟨-, hfree₂, hnode₂⟩ := hs₂.wf.leaf _ _ (user_vpn pftemp_below.1) htemp
      rw [hppn] at hfree₂ hnode₂
      -- the page that it has copied is mapped
      obtain ⟨⟨x, hx, -⟩, -⟩ := memmovePage_some hmv
      have hold : leafEntry m₂ r (roundDown addr pgsize) = some x.pte := by
        rw [hs₂.wf.leafEntry_view hroot hb, hv₂, ← ha.sound.wf.leafEntry_view hroot hb]
        unfold leafEntry
        rw [hx]
        rfl
      have hmax : (m₂.pages (ppn (mkPte p cowPerm))).ppRef ≠ 0xFFFF := by
        rw [hppn, hp₂, ha.once]
        decide
      obtain ⟨m₃, fl₃, h1, hs₃, h2⟩ := cow_map (k := k.setPm m₂) hs₂ hroot hr ⟨hb, roundDown_aligned⟩ hleaf
        (by rw [flag_mkPte_w]; decide) hmax hold
      have hv₃ := h2.view_eq hs₂ hb cowPerm_ok
      rw [hppn] at hv₃ h2
      have htemp₃ : view (roots k) m₃ (tempPage cur) = some (mkPte p cowPerm) := by
        rw [hv₃]
        by_cases he : tempPage cur = (ownerOf cur (roundDown addr pgsize), vpn (roundDown addr pgsize))
        · rw [← he, Function.update_self]
        · rw [Function.update_of_ne he]
          exact htemp
      have hleaf₃ := (hs₃.wf.leafEntry_view hroot pftemp_below.1).trans htemp₃
      have hnode₃ := (hs₃.wf.leaf _ _ (user_vpn pftemp_below.1) htemp₃).2.2
      rw [hppn] at hnode₃
      obtain ⟨m₄, fl₄, h3, hs₄, hv₄, -, h4⟩ := cow_unmap (k := k.setPm m₃) hs₃ hroot hr hleaf₃
      refine ⟨hva, m₄, fl₄, ?_, hs₄, ?_, ?_⟩
      · rw [Kernel.setPm_setPm, h1, Kernel.setPm_setPm]
        simp only [Option.bind_some]
        rw [if_neg (by decide), h3, Kernel.setPm_setPm]
        simp only [Option.bind_some]
        rw [if_neg (by decide)]
      · rw [h4 p hnode₃]
        exact h2.off (fun π hπ => hnode₂ hπ.node) hfree₂
      · rw [hv₄]
        change Function.update (view (roots k) m₃) _ _ = _
        rw [hv₃]
        change Function.update (Function.update (view (roots k) m₂) _ _) _ _ = _
        rw [hv₂, ownerOf_vpn vpn_roundDown, vpn_roundDown]
    · left
      refine ⟨hva, ?_, hv₂, hb₂⟩
      have hid : envid2env k cur 0 true = some cur := rfl
      have h1 : sysPageMap (k.setPm m₂) cur 0 pftemp 0 (roundDown addr pgsize) cowPerm = some (-eInval, k.setPm m₂) :=
        sysPageMap_inval hid hid fun h => hva (roundDown_below.1 h.2.1.1)
      rw [Kernel.setPm_setPm, h1]
      simp only [Option.bind_some]
      rw [if_pos (by decide)]

/-! ## The condition -/

/-- The fault is a write to a page that is present and copy-on-write. -/
def CowWrite (k : Kernel) (cur : EnvIdx) (utf : UTrapframe) : Prop :=
  flag (utf.utfErr.setWidth 32) fecWr = true ∧
    ∃ v, k.leafEntry cur utf.utfFaultVa = some v ∧ flag v pteCow = true

/-- The page of `addr` is replaced by a writable copy that is mapped nowhere else. -/
structure Repaired (k k' : Kernel) (cur : EnvIdx) (addr : VA) : Prop where
  copy : ∃ w, k'.leafEntry cur addr = some w ∧ w = mkPte (ppn w) cowPerm ∧
    (∀ v, k.leafEntry cur addr = some v → k'.pm.mem (ppn w) = k.pm.mem (ppn v)) ∧
    ∀ e va v, k.Live e → va < utop → k'.leafEntry e va = some v → ppn v = ppn w → e = cur ∧ vpn va = vpn addr
  temp : k'.leafEntry cur pftemp = none
  rest : ∀ e va, k.Live e → va < utop → (e = cur → vpn va ≠ vpn addr ∧ vpn va ≠ vpn pftemp) →
    k'.leafEntry e va = k.leafEntry e va

/-- The mappings of all address spaces are the same. -/
def SameMappings (k k' : Kernel) : Prop := view (roots k') k'.pm = view (roots k) k.pm

/-- **The right thing to do**: a write to a copy-on-write page is repaired, and all other faults end
in a panic. -/
structure CowRight (k : Kernel) (cur : EnvIdx) (utf : UTrapframe) : Prop where
  repairs : CowWrite k cur utf → ∃ k', pgfault k cur utf = some (.ret k') ∧ Repaired k k' cur utf.utfFaultVa
  panics : ¬ CowWrite k cur utf → ∃ k', pgfault k cur utf = some (.panic k') ∧ SameMappings k k'

/-- What a repair takes: that the page is below `UTOP`, is not `PFTEMP` and is not in the tables that
the environments share, that the program may read it and write at `PFTEMP`, and that there are pages
for the copy and for the tables of `PFTEMP`. -/
structure CopyFits (k : Kernel) (cur : EnvIdx) (r : ℕ) (fl : List ℕ) (addr : VA) : Prop where
  below : addr < utop
  apart : vpn addr ≠ vpn pftemp
  own : pml4 addr = 0 ∨ ∀ e, k.Live e → e = cur
  reads : UserReads k.pm r addr
  access : OpenWalk k.pm r (path pftemp)
  room : missingTables k.pm r pftemp < fl.length

/-- **When it does the right thing**: it panics on reads of pages that are marked copy-on-write and
when there are too few free pages, and repairs the writes that it can. -/
structure CowFits (k : Kernel) (cur : EnvIdx) (r : ℕ) (fl : List ℕ) (utf : UTrapframe) : Prop where
  repairs : CowWrite k cur utf → CopyFits k cur r fl utf.utfFaultVa
  panics : ¬ CowWrite k cur utf →
    (flag (utf.utfErr.setWidth 32) fecWr = false →
      ∃ w, loadWord k.pm r (uvptEntry utf.utfFaultVa) = some w ∧
        (flag w pteCow = true ∨ fl.length ≤ missingTables k.pm r pftemp)) ∧
    (flag (utf.utfErr.setWidth 32) fecWr = true → fl.length ≤ missingTables k.pm r pftemp)

/-! ## The outcomes -/

theorem leafEntry_root (hr : (k.envs cur).envPml4e = some r) : k.leafEntry cur va = leafEntry k.pm r va := by
  unfold Kernel.leafEntry
  rw [hr]
  rfl

/-- A page that one environment sees alone. -/
theorem page_own (hown : pml4 addr = 0 ∨ ∀ e, k.Live e → e = cur) (he : k.Live e)
    (hp : (ownerOf e va, vpn va) = faultPage cur addr) : e = cur ∧ vpn va = vpn addr := by
  obtain ⟨h1, h2⟩ := Prod.mk.inj hp
  refine ⟨?_, h2⟩
  rcases hown with h0 | h0
  · have h3 : pml4 va = pml4 addr := congrArg Prod.fst h2
    unfold ownerOf at h1
    rw [h3, if_pos h0, if_pos h0] at h1
    cases h1
    rfl
  · exact h0 e he

section outcomes

variable {F : Set ℕ} {K : Vpn → Option PTE} {A : PTE → Prop} {efl : List EnvIdx} {utf : UTrapframe}
variable (h : KInv F K A k fl efl) (hc : k.Live cur) (hr : (k.envs cur).envPml4e = some r)

include h

/-- The mappings of an environment, in a state that differs in the memory manager. -/
theorem leafEntry_setPm (hs : Sound (roots k) m' fl') (he : k.Live e) (hva : va < utop) :
    (k.setPm m').leafEntry e va = view (roots k) m' (ownerOf e va, vpn va) := by
  obtain ⟨r, h1, h2⟩ := h.pml4e he
  unfold Kernel.leafEntry
  rw [Kernel.setPm_envs, h1]
  exact hs.wf.leafEntry_view h2 hva

include hc hr

/-- Too few free pages. -/
theorem pgfaultCopy_short (hm : fl.length ≤ missingTables k.pm r pftemp) :
    ∃ k', pgfaultCopy k cur addr = some (.panic k') ∧ SameMappings k k' := by
  obtain ⟨m', h1, h2⟩ := cow_alloc_short h.inv.sound hc hr hm
  refine ⟨k.setPm m', ?_, ?_⟩
  · unfold pgfaultCopy
    rw [h1]
    simp only [Option.bind_eq_bind, Option.bind_some]
    rw [if_neg (by decide)]
  · unfold SameMappings
    rw [roots_setPm h2.boot]
    exact (h.inv.sound.wf.restored h2).2.2

/-- With a page for the copy, a panic leaves that page at `PFTEMP`. -/
theorem pgfaultCopy_panic (hm : missingTables k.pm r pftemp < fl.length)
    (hp : pgfaultCopy k cur addr = some (.panic k')) : ¬ SameMappings k k' := by
  intro hsame
  obtain ⟨m₁, fl₁, p, ha, h1⟩ := pgfaultCopy_cases addr h.inv.sound hc hr hm
  rcases h1 with ⟨-, h1⟩ | ⟨m₂, -, ⟨-, h1, h2, h3⟩ | ⟨-, m₄, fl₄, h1, -⟩⟩
  · rw [h1] at hp
    cases hp
  · rw [h1] at hp
    cases hp
    unfold SameMappings at hsame
    rw [roots_setPm (h3.trans ha.boot)] at hsame
    have h4 := congrFun (h2.symm.trans hsame) (tempPage cur)
    rw [ha.view, Function.update_self] at h4
    -- the page was free, so it was mapped nowhere
    have h5 := (h.inv.sound.wf.leaf _ _ (user_vpn pftemp_below.1) h4.symm).2.1
    rw [ha.ppn h.inv.sound] at h5
    exact h5 ha.free
  · rw [h1] at hp
    cases hp

/-- **A repair**, where it is possible. -/
theorem pgfaultCopy_fits (hf : CopyFits k cur r fl addr) :
    ∃ k', pgfaultCopy k cur addr = some (.ret k') ∧ Repaired k k' cur addr := by
  have hs := h.inv.sound
  have hroot : roots k (.env cur) = some r := by rw [roots_env hc, hr]
  obtain ⟨m₁, fl₁, p, ha, h1⟩ := pgfaultCopy_cases addr hs hc hr hf.room
  obtain ⟨y, hy, hyp, hpn, hyw⟩ := ha.temp hs hroot
  obtain ⟨z, hz, hzw⟩ := hyw.2 hf.access
  rw [hy] at hz
  cases hz
  obtain ⟨x, hx, hxu⟩ := hf.reads
  have hx₁ : translate m₁ r addr = some x := by
    rw [ha.others addr (pml4_below hf.below) hf.apart, hx]
  have hx₂ : translate m₁ r (roundDown addr pgsize) = some x := by
    rw [translate_vpn vpn_roundDown, hx₁]
  have hmv : memmovePage m₁ r pftemp (roundDown addr pgsize) = some (copiedTo m₁ (ppn y.pte) (ppn x.pte) 512) := by
    refine memmovePage_eq hx₂ hxu hy hzw ?_ ?_ ?_ (by decide)
    · intro w hw hcw
      exact hpn (hyp ▸ hcw ▸ ha.sound.wf.walk_node hroot (roundDown_below.2 hf.below) hx₂ w hw)
    · intro w hw hcw
      exact hpn (hyp ▸ hcw ▸ ha.sound.wf.walk_node hroot pftemp_below.1 hy w hw)
    · rw [roundDown_toNat]
      omega
  rcases h1 with ⟨h1, -⟩ | ⟨m₂, h1, ⟨h2, -⟩ | ⟨-, m₄, fl₄, h2, hs₄, hmem, hv₄⟩⟩
  · rw [h1] at hmv
    cases hmv
  · exact absurd hf.below h2
  · rw [h1] at hmv
    cases hmv
    have hppn := ha.ppn hs
    have hne : faultPage cur addr ≠ tempPage cur := fun hc => hf.apart (Prod.mk.inj hc).2
    have hpage : view (roots k) m₄ (faultPage cur addr) = some (mkPte p cowPerm) := by
      rw [hv₄, Function.update_of_ne hne, Function.update_self]
    have htemp : view (roots k) m₄ (tempPage cur) = none := by
      rw [hv₄, Function.update_self]
    have hother : ∀ s, s ≠ faultPage cur addr → s ≠ tempPage cur →
        view (roots k) m₄ s = view (roots k) k.pm s := by
      intro s h3 h4
      rw [hv₄, Function.update_of_ne h4, Function.update_of_ne h3, ha.view, Function.update_of_ne h4]
    refine ⟨k.setPm m₄, h2, ⟨mkPte p cowPerm, ?_, by rw [hppn], ?_, ?_⟩, ?_, ?_⟩
    · rw [leafEntry_setPm h hs₄ hc hf.below]
      exact hpage
    · intro v hv
      rw [leafEntry_root hr] at hv
      have hxv : x.pte = v := by
        unfold leafEntry at hv
        rw [hx] at hv
        exact Option.some.inj hv
      rw [hs.wf.leafEntry_view hroot hf.below] at hv
      obtain ⟨-, hvf, hvn⟩ := hs.wf.leaf _ v (user_vpn hf.below) hv
      rw [Kernel.setPm_pm, hppn, hmem, hxv, hyp]
      funext j
      exact (if_pos ⟨rfl, j.isLt⟩).trans (congrFun (ha.off _ hvn hvf) j)
    · -- the page was free, so that it is mapped only where it has been put
      intro e va v he hva hv hvp
      rw [leafEntry_setPm h hs₄ he hva] at hv
      by_cases h3 : (ownerOf e va, vpn va) = faultPage cur addr
      · exact page_own hf.own he h3
      · by_cases h4 : (ownerOf e va, vpn va) = tempPage cur
        · rw [h4, htemp] at hv
          cases hv
        · rw [hother _ h3 h4] at hv
          have h5 := (hs.wf.leaf _ v (user_vpn hva) hv).2.1
          rw [hvp, hppn] at h5
          exact absurd ha.free h5
    · rw [leafEntry_setPm h hs₄ hc pftemp_below.1]
      exact htemp
    · intro e va he hva hne
      rw [leafEntry_setPm h hs₄ he hva, hother]
      · exact (leafEntry_setPm h hs he hva).symm
      · intro h3
        obtain ⟨rfl, h4⟩ := page_own hf.own he h3
        exact (hne rfl).1 h4
      · intro h3
        obtain ⟨rfl, h4⟩ := page_own (k := k) (Or.inl (by decide)) he h3
        exact (hne rfl).2 h4

/-- **A handler that returns and has repaired** the mapping was able to. -/
theorem Repaired.fits (hret : pgfaultCopy k cur addr = some (.ret k')) (hrep : Repaired k k' cur addr) :
    CopyFits k cur r fl addr := by
  have hs := h.inv.sound
  have hroot : roots k (.env cur) = some r := by rw [roots_env hc, hr]
  have hm : missingTables k.pm r pftemp < fl.length := by
    by_contra hm
    obtain ⟨k₂, h1, -⟩ : ∃ k₂, pgfaultCopy k cur addr = some (.panic k₂) ∧ SameMappings k k₂ :=
      pgfaultCopy_short h hc hr (not_lt.1 hm)
    rw [h1] at hret
    cases hret
  obtain ⟨m₁, fl₁, p, ha, h1⟩ := pgfaultCopy_cases addr hs hc hr hm
  rcases h1 with ⟨-, h1⟩ | ⟨m₂, hmv, ⟨-, h1, -⟩ | ⟨hva, m₄, fl₄, h1, hs₄, -⟩⟩
  · rw [h1] at hret
    cases hret
  · rw [h1] at hret
    cases hret
  · rw [h1] at hret
    cases hret
    obtain ⟨w, hentry, -, -, halone⟩ := hrep.copy
    have happ : vpn addr ≠ vpn pftemp := by
      intro hv
      have h2 := hrep.temp
      rw [leafEntry_setPm h hs₄ hc pftemp_below.1, ← hv, ← ownerOf_vpn hv, ← leafEntry_setPm h hs₄ hc hva,
        hentry] at h2
      cases h2
    obtain ⟨⟨x, hx, hxu⟩, hw⟩ := memmovePage_some hmv
    rw [translate_vpn vpn_roundDown, ha.others addr (pml4_below hva) happ] at hx
    obtain ⟨y, -, -, -, hyw⟩ := ha.temp hs hroot
    refine ⟨hva, happ, ?_, ⟨x, hx, hxu⟩, hyw.1 hw, hm⟩
    -- the tables of slot 1 are those of all environments
    by_contra hown
    rw [not_or, not_forall] at hown
    obtain ⟨h0, e, he⟩ := hown
    rw [Classical.not_imp] at he
    have howner : ownerOf e addr = ownerOf cur addr := by
      unfold ownerOf
      rw [if_neg h0, if_neg h0]
    have h2 : (k.setPm m₄).leafEntry e addr = some w := by
      rw [leafEntry_setPm h hs₄ he.1 hva, howner, ← leafEntry_setPm h hs₄ hc hva]
      exact hentry
    exact he.2 (halone e addr w he.1 hva h2 rfl).1

/-! ## The test -/

omit h hc in
theorem pgfault_write (hw : flag (utf.utfErr.setWidth 32) fecWr = true) :
    pgfault k cur utf = pgfaultCopy k cur utf.utfFaultVa := by
  unfold pgfault
  simp only [hr, hw, Option.bind_eq_bind, Option.bind_some, Bool.not_true, Bool.false_eq_true, if_false]

omit h hc in
theorem pgfault_read (hw : flag (utf.utfErr.setWidth 32) fecWr = false) :
    pgfault k cur utf = match loadWord k.pm r (uvptEntry utf.utfFaultVa) with
      | none => some (.fault k)
      | some w => if flag w pteCow then some (.panic k) else pgfaultCopy k cur utf.utfFaultVa := by
  unfold pgfault
  simp only [hr, Option.bind_eq_bind, Option.bind_some]
  rw [hw]
  rcases loadWord k.pm r (uvptEntry utf.utfFaultVa) with _ | w
  · rfl
  · rfl

theorem CowRight.fits (hright : CowRight k cur utf) : CowFits k cur r fl utf := by
  refine ⟨fun hcow => ?_, fun hcow => ?_⟩
  · obtain ⟨k', hret, hrep⟩ := hright.repairs hcow
    rw [pgfault_write hr hcow.1] at hret
    exact hrep.fits h hc hr hret
  · obtain ⟨k', hp, hsame⟩ := hright.panics hcow
    have hcopy : pgfaultCopy k cur utf.utfFaultVa = some (.panic k') →
        fl.length ≤ missingTables k.pm r pftemp := by
      intro hp
      by_contra hm
      exact pgfaultCopy_panic h hc hr (not_le.1 hm) hp hsame
    constructor
    · intro hw
      rw [pgfault_read hr hw] at hp
      cases hl : loadWord k.pm r (uvptEntry utf.utfFaultVa) with
      | none =>
        rw [hl] at hp
        cases hp
      | some w =>
        rw [hl] at hp
        refine ⟨w, rfl, ?_⟩
        by_cases hf : flag w pteCow = true
        · exact Or.inl hf
        · right
          apply hcopy
          simpa only [if_neg hf] using hp
    · intro hw
      rw [pgfault_write hr hw] at hp
      exact hcopy hp

theorem CowFits.right (hfits : CowFits k cur r fl utf) : CowRight k cur utf := by
  refine ⟨fun hcow => ?_, fun hcow => ?_⟩
  · rw [pgfault_write hr hcow.1]
    exact pgfaultCopy_fits h hc hr (hfits.repairs hcow)
  · obtain ⟨hread, hwrite⟩ := hfits.panics hcow
    by_cases hw : flag (utf.utfErr.setWidth 32) fecWr = true
    · rw [pgfault_write hr hw]
      exact pgfaultCopy_short h hc hr (hwrite hw)
    · rw [Bool.not_eq_true] at hw
      obtain ⟨w, hl, hor⟩ := hread hw
      rw [pgfault_read hr hw, hl]
      by_cases hf : flag w pteCow = true
      · exact ⟨k, by simp only [if_pos hf], rfl⟩
      · simp only [if_neg hf]
        exact pgfaultCopy_short h hc hr (hor.resolve_left hf)

/-- **When the handler does the right thing**, in every state of the page tables that meets the kernel
invariant: it panics on reads of pages that are marked copy-on-write, and without free pages; it
never panics on a write to a page that is not copy-on-write, and on a read of such a page. -/
theorem cowRight_iff : CowRight k cur utf ↔ CowFits k cur r fl utf :=
  ⟨fun hright => hright.fits h hc hr, fun hfits => hfits.right h hc hr⟩

end outcomes

/-- The first program, after it has allocated a page at `0x1000000`. -/
def pageRun (perm : BitVec 32) : List Event := bootRun ++ [.syscall 0 (.pageAlloc 0 0x1000000 perm)]

theorem reach_pageRun (h : runs bootKernel (pageRun perm) = some k) : Reach Clean bootKernel k := by
  refine reach_of_runs (fun ev hev k => ?_) h
  rcases List.mem_append.1 hev with hev | hev
  · exact clean_bootRun ev hev k
  · cases List.mem_singleton.1 hev
    trivial

/-- A write by the program to `0x1000000`. -/
def writeFault : UTrapframe := ⟨0x1000000, 7, {}, 0x800000, 0, 0⟩

/-- If a page can be allocated at `PFTEMP`, there are enough free pages. -/
theorem cow_room (h : Sound (roots k) k.pm fl) (hc : k.Live cur) (hr : (k.envs cur).envPml4e = some r)
    (ha : ((sysPageAlloc k cur 0 pftemp cowPerm).any fun x => x.1 == 0) = true) :
    missingTables k.pm r pftemp < fl.length := by
  by_contra hm
  obtain ⟨m', h1, -⟩ := cow_alloc_short h hc hr (not_lt.1 hm)
  rw [h1] at ha
  simp [eNoMem] at ha

/-- A copy-on-write page is repaired. -/
theorem cowRight_cow : ∃ k, runs bootKernel (pageRun (pteU ||| pteP ||| 0x800)) = some k ∧
    CowRight k 0 writeFault := by
  have h : ((runs bootKernel (pageRun (pteU ||| pteP ||| 0x800))).any fun k => decide (k.Live 0) &&
      ((k.leafEntry 0 0x1000000).any fun v => flag v pteCow) && ((k.envs 0).envPml4e.any fun r =>
        ((translate k.pm r 0x1000000).any fun x => x.user) &&
          (walkEntries k.pm r (path pftemp)).all fun e => flag e pteW && flag e pteU) &&
      ((sysPageAlloc k 0 0 pftemp cowPerm).any fun x => x.1 == 0)) = true := by
    decide +kernel
  obtain ⟨k, hk, h⟩ := (Option.any_eq_true _ _).1 h
  simp only [Bool.and_eq_true, decide_eq_true_eq, Option.any_eq_true, List.all_eq_true] at h
  obtain ⟨⟨⟨hc, v, hv, hcow⟩, r, hr, ⟨x, hx, hxu⟩, ho⟩, ha⟩ := h
  obtain ⟨fl, efl, hinv⟩ := boot_bootKernel.reach (fun _ _ => Clean.grants_true) (reach_pageRun hk)
  have hroom := cow_room hinv.inv.sound hc hr ((Option.any_eq_true _ _).2 ha)
  have hwrite : CowWrite k 0 writeFault := ⟨by decide, v, hv, hcow⟩
  refine ⟨k, hk, (cowRight_iff hinv hc hr).2 ⟨fun _ => ?_, fun hn => absurd hwrite hn⟩⟩
  exact ⟨by decide, by decide, Or.inl (by decide), ⟨x, hx, hxu⟩, ho, hroom⟩

/-- **This fails** for a write to a page that is read-only and not copy-on-write: the program
gets a writable copy of it. -/
theorem cowRight_counterexample : ∃ k, runs bootKernel (pageRun (pteU ||| pteP)) = some k ∧
    Reach Clean bootKernel k ∧ k.Live 0 ∧ ¬ CowWrite k 0 writeFault ∧ ¬ CowRight k 0 writeFault := by
  have h : ((runs bootKernel (pageRun (pteU ||| pteP))).any fun k => decide (k.Live 0) &&
      ((k.leafEntry 0 0x1000000).any fun v => !flag v pteCow) && (k.envs 0).envPml4e.isSome &&
      ((sysPageAlloc k 0 0 pftemp cowPerm).any fun x => x.1 == 0)) = true := by
    decide +kernel
  obtain ⟨k, hk, h⟩ := (Option.any_eq_true _ _).1 h
  rw [Bool.and_eq_true, Bool.and_eq_true, Bool.and_eq_true, decide_eq_true_eq, Option.any_eq_true] at h
  obtain ⟨⟨⟨hc, v, hv, hcow⟩, hsome⟩, ha⟩ := h
  obtain ⟨r, hr⟩ := Option.isSome_iff_exists.1 hsome
  obtain ⟨fl, efl, hinv⟩ := boot_bootKernel.reach (fun _ _ => Clean.grants_true) (reach_pageRun hk)
  have hroom := cow_room hinv.inv.sound hc hr ha
  have hwrite : ¬ CowWrite k 0 writeFault := by
    rintro ⟨-, w, hw, hf⟩
    change k.leafEntry 0 0x1000000 = some w at hw
    rw [hv] at hw
    cases hw
    rw [hf] at hcow
    cases hcow
  refine ⟨k, hk, reach_pageRun hk, hc, hwrite, fun hright => ?_⟩
  have h1 := ((hright.fits hinv hc hr).panics hwrite).2 (by decide)
  omega

end Jos
