import Jos.Proof.Cow
import Jos.Proof.Mmio
import Jos.Spec.Icode

/-!
# The image of a program

`load_icode` fills an empty address space: the pages that are mapped are those that it has allocated
so far, each with a page of its own that is neither free nor a table (`Space`). A page is added by a
turn of `region_alloc` (`Space.page`), and a store changes one byte (`Space.store`), so that what was
loaded stays as it is.

`image_loaded`: every byte of a segment is that of the file, or 0, and no other pages are mapped than
those that the segments are rounded to. An empty segment in the middle of a page is rounded to this
page (`image_loaded_counterexample`).
-/

namespace Jos

open Lib

variable {S : Set Idx} {m m' m₁ : Pmap} {fl fl' : List ℕ} {D : Set ℕ} {r p q t i j : ℕ} {va va' : VA}
  {x x' : Translation} {b c : Byte} {w : BitVec 64} {bs : List Byte} {π ρ : List Idx}

/-! ## A fresh page -/

/-- What `page_insert` leaves for a page that was just taken from the free list. -/
structure PageAdded (S : Set Idx) (r : ℕ) (m : Pmap) (fl : List ℕ) (m' : Pmap) (fl' : List ℕ) (va : VA) (p : ℕ) :
    Prop where
  tree : TreeOk S r m' fl'
  page : p ∈ fl
  kept : p ∉ fl'
  sub : ∀ n ∈ fl', n ∈ fl
  tables : ∀ π t, TableAt S r m' π t → t ≠ p ∧ (TableAt S r m π t ∨ t ∈ fl)
  entry : leafEntry m' r va = some (mkPte p (pteW ||| pteU))
  others : ∀ va', pml4 va' ∈ S → vpn va' ≠ vpn va → translate m' r va' = translate m r va'
  access : ∀ va', pml4 va' ∈ S → (OpenWalk m' r (path va') ↔ OpenWalk m r (path va'))
  frame : ∀ n, n ∉ fl → (∀ π, ¬ TableAt S r m π n) → m'.mem n = m.mem n

/-- A page that is taken and counted is no table, and free no more. -/
theorem TreeOk.taken (h : TreeOk S r m (p :: fl)) : TreeOk S r ((Jos.taken m false p).incRef p) fl := by
  have hp : p ∉ fl := (List.nodup_cons.1 h.free.nodup).1
  have hm : ∀ π t, TableAt S r m π t → (Jos.taken m false p).mem t = m.mem t := fun _ _ _ => rfl
  have h1 : TreeOk S r (Jos.taken m false p) fl :=
    (h.off hm (h.free.taken false) (fun π t ht hf => h.notFree π t ht (List.mem_cons_of_mem _ hf)) taken_npages).1
  exact h1.incRef hp

/-- The walk of a table that exists meets tables only. -/
theorem walkWords_at (ht : TableAt S r m π t) (hq : TableAt S r m (π ++ ρ) q) :
    ∀ x ∈ walkWords m t ρ, ∃ π', TableAt S r m π' x.1 := by
  induction ρ generalizing π t with
  | nil => exact fun x hx => absurd hx List.not_mem_nil
  | cons i ρ ih =>
    have hq' : TableAt S r m ((π ++ [i]) ++ ρ) q := by simpa using hq
    obtain ⟨s, hs⟩ := hq'.prefix
    obtain ⟨-, t', ht', hn⟩ := Forest.at_append.1 hs
    rw [ht'.det ht] at hn
    obtain ⟨-, rfl⟩ := next_eq_some.1 hn
    intro x hx
    rcases List.mem_cons.1 hx with rfl | hx
    · exact ⟨π, ht⟩
    · exact ih hs hq' x hx

/-- The page is mapped, once a walk has made its tables. -/
theorem Extended.pageAdded {new : List ℕ} (hx : Extended S r m fl m₁ fl' new (walkWords m₁ r (path va)))
    (h : TreeOk S r m fl) (hq : TableAt S r m₁ (path va) q) (hp : p ∉ fl) (htp : ∀ π, ¬ TableAt S r m π p)
    (href : (m.pages p).ppRef = 1) (habs : ¬ flag (m₁.mem q (ptx va)) pteP = true) :
    PageAdded S r m (p :: fl) (insertAt m₁ q (ptx va) p (pteW ||| pteU)) fl' va p := by
  have hpn : p ∉ new := fun hf => hp (by rw [hx.list]; exact List.mem_append_left _ hf)
  have hpr : p ∉ fl' := fun hf => hp (by rw [hx.list]; exact List.mem_append_right _ hf)
  have hmax : (m₁.pages p).ppRef ≠ 0xFFFF := by
    rw [hx.ref, if_neg hpn, href]
    decide
  have hfree : FreeOK (insertAt m₁ q (ptx va) p (pteW ||| pteU)) fl' := by
    have h1 : presentAt m₁ q (ptx va) = none := if_neg habs
    have h2 : FreeOK (insertAt m₁ q (ptx va) p (pteW ||| pteU))
        (insertedList (insertAt m₁ q (ptx va) p (pteW ||| pteU)) fl' (presentAt m₁ q (ptx va))) :=
      insertAt_free hx.ok.free hpr hmax fun hf => absurd hf habs
    rw [h1] at h2
    exact h2
  obtain ⟨hw, hat, htr⟩ := hx.ok.leafWrite (d := ptx va) (v := mkPte p (pteW ||| pteU)) hq
  have hmem : (insertAt m₁ q (ptx va) p (pteW ||| pteU)).mem = (m₁.write q (ptx va) (mkPte p (pteW ||| pteU))).mem :=
    insertAt_mem_eq
  have hnp : (insertAt m₁ q (ptx va) p (pteW ||| pteU)).npages = m₁.npages := insertAt_npages
  generalize insertAt m₁ q (ptx va) p (pteW ||| pteU) = m' at hmem hfree hnp ⊢
  have hat' : ∀ π n, TableAt S r m' π n ↔ TableAt S r m₁ π n := fun π n =>
    (tableAt_mem hmem).trans (hat π n)
  have htab : ∀ π t, TableAt S r m' π t → t ≠ p ∧ (TableAt S r m π t ∨ t ∈ fl) := by
    intro π t ht
    have h1 := (hat' π t).1 ht
    by_cases hn : t ∈ new
    · have h2 : t ∈ fl := by rw [hx.list]; exact List.mem_append_left _ hn
      refine ⟨?_, Or.inr h2⟩
      rintro rfl
      exact hp h2
    · refine ⟨?_, Or.inl (hx.old h1 hn)⟩
      rintro rfl
      exact htp π (hx.old h1 hn)
  have hupper : ∀ π t i, TableAt S r m₁ π t → InSlots S (π ++ [i]) → m'.mem t i = m₁.mem t i := by
    intro π t i ht hd
    rw [hmem]
    apply Pmap.write_mem_of_ne
    rintro ⟨rfl, -⟩
    obtain rfl := hx.ok.unshared _ _ _ ht hq
    exact absurd hd.1 (by simp [path])
  refine ⟨?_, List.mem_cons_self, hpr, ?_, ?_, ?_, ?_, ?_, ?_⟩
  · exact (hw.off (fun _ _ _ => by rw [hmem]) hfree hw.notFree hnp).1
  · exact fun n hn => List.mem_cons_of_mem _ (by rw [hx.list]; exact List.mem_append_right _ hn)
  · exact fun π t ht => ⟨(htab π t ht).1, (htab π t ht).2.imp_right (List.mem_cons_of_mem _)⟩
  · rw [leafEntry_at ((hat' _ _).2 hq)]
    refine presentAt_eq_some.2 ⟨?_, flag_mkPte _ _⟩
    rw [hmem, Pmap.write_mem_self]
  · intro va' hva' hne
    rw [translate_mem hmem, ← hx.translate va' hva']
    refine htr va' hva' fun hi => hne ?_
    simp only [indices, path, List.cons_append, List.nil_append, List.cons.injEq, and_true] at hi
    simp only [vpn, hi]
  · intro va' hva'
    exact (openWalk_frame hupper tableAt_root (inSlots_path hva')).trans
      (hx.open_iff h tableAt_root (inSlots_path hva'))
  · intro n hn hno
    rw [List.mem_cons, not_or] at hn
    have hnn : n ∉ new := fun hf => hn.2 (by rw [hx.list]; exact List.mem_append_left _ hf)
    have hn₁ : ∀ π, ¬ TableAt S r m₁ π n := fun π ht => hno π (hx.old ht hnn)
    funext j
    rw [hmem, Pmap.write_mem_of_ne fun hc => hn₁ _ (hc.1 ▸ hq)]
    refine hx.frame n hnn j fun hj => ?_
    -- the walk has stored to tables only
    obtain ⟨π', ht⟩ := walkWords_at tableAt_root hq _ hj
    exact hn₁ π' ht

/-- What a step does depends on the words that are stored. -/
theorem PageAdded.congr (h : PageAdded S r m₁ fl m' fl' va p) (hm : m₁.mem = m.mem) : PageAdded S r m fl m' fl' va p where
  tree := h.tree
  page := h.page
  kept := h.kept
  sub := h.sub
  tables := fun π t ht => ⟨(h.tables π t ht).1, (h.tables π t ht).2.imp_left (tableAt_mem hm).1⟩
  entry := h.entry
  others := fun va' hva' hne => (h.others va' hva' hne).trans (translate_mem hm)
  access := fun va' hva' => (h.access va' hva').trans
    (openWalk_frame (fun _ _ _ _ _ => by rw [hm]) tableAt_root (inSlots_path hva'))
  frame := fun n hn hno => (h.frame n hn fun π ht => hno π ((tableAt_mem hm).1 ht)).trans (by rw [hm])

/-- **One turn of `region_alloc`**, at an address that is not mapped. -/
theorem TreeOk.regionAllocPage (h : TreeOk S r m fl) (hva : pml4 va ∈ S) (hn : translate m r va = none)
    (hs : Jos.regionAllocPage r m va = some m') : ∃ fl' p, PageAdded S r m fl m' fl' va p := by
  unfold Jos.regionAllocPage at hs
  cases fl with
  | nil =>
    rw [pageAlloc_nil h.free] at hs
    cases hs
  | cons p fl =>
    have hp : p ∉ fl := (List.nodup_cons.1 h.free.nodup).1
    rw [pageAlloc_cons h.free] at hs
    simp only [Option.bind_eq_bind, Option.bind_some] at hs
    obtain ⟨⟨ret, m₂⟩, hi, hs⟩ := Option.bind_eq_some_iff.1 hs
    have hok : TreeOk S r ((Jos.taken m false p).incRef p) fl := h.taken
    have href : (((Jos.taken m false p).incRef p).pages p).ppRef = 1 := by
      rw [Pmap.incRef_ref, if_pos rfl, taken_ref, h.free.ref p List.mem_cons_self]
      rfl
    have hmem : ((Jos.taken m false p).incRef p).mem = m.mem := rfl
    generalize (Jos.taken m false p).incRef p = m₁ at hi hok href hmem
    have htp : ∀ π, ¬ TableAt S r m₁ π p := fun π ht =>
      h.notFree π p ((tableAt_mem hmem).1 ht) List.mem_cons_self
    by_cases hm : missingTables m₁ r va ≤ fl.length
    · obtain ⟨m₃, q, hw, hx, hq⟩ := hok.pml4eWalk hva hm
      -- nothing is mapped there
      have habs : ¬ flag (m₃.mem q (ptx va)) pteP = true := by
        intro hf
        have h1 := leafEntry_at hq
        rw [presentAt_of_flag hf] at h1
        unfold leafEntry at h1
        rw [hx.translate va hva, translate_mem hmem, hn] at h1
        cases h1
      have hadd := hx.pageAdded hok hq hp htp href habs
      rw [hx.ok.pageInsert_eq hva hadd.kept hw hq fun hf => absurd hf habs] at hi
      cases hi
      cases hs
      exact ⟨_, p, hadd.congr hmem⟩
    · obtain ⟨m₃, h1, -⟩ := hok.pml4eWalk_short hva (by omega)
      unfold Jos.pageInsert at hi
      rw [h1] at hi
      cases hi
      cases hs

end Jos

namespace Jos.Icode

open Lib

variable {S : Set Idx} {m m' m₁ : Pmap} {fl fl' : List ℕ} {D : Set ℕ} {r p q t i j : ℕ} {va va' : VA}
  {x x' : Translation} {b c : Byte} {w : BitVec 64} {bs : List Byte} {π : List Idx}

/-! ## Bytes -/

/-- Byte `i` of a word. -/
def getByte (w : BitVec 64) (i : ℕ) : Byte := (w >>> (8 * i)).setWidth 8

theorem getByte_setByte (hi : i < 8) (hj : j < 8) :
    getByte (setByte w i b) j = if j = i then b else getByte w j := by
  have h255 : ∀ n, (0xFF#64).getLsbD n = decide (n < 8) := by
    intro n
    by_cases hn : n < 64
    · interval_cases n <;> decide
    · rw [BitVec.getLsbD_of_ge _ _ (by omega), decide_eq_false (by omega)]
  unfold getByte setByte
  ext k hk
  simp only [BitVec.getElem_setWidth, BitVec.getLsbD_ushiftRight, BitVec.getLsbD_or, BitVec.getLsbD_and,
    BitVec.getLsbD_not, BitVec.getLsbD_shiftLeft, h255]
  have hlt : 8 * j + k < 64 := by omega
  rcases lt_trichotomy j i with hji | rfl | hji
  · have h1 : 8 * j + k < 8 * i := by omega
    rw [if_neg (by omega)]
    simp [h1, hlt, BitVec.getLsbD_ushiftRight]
  · have h1 : 8 * j + k - 8 * j = k := by omega
    rw [if_pos rfl]
    simp [h1, hk, hlt]
    exact fun _ => by omega
  · have h1 : ¬ 8 * j + k < 8 * i := by omega
    have h2 : ¬ 8 * j + k - 8 * i < 8 := by omega
    have h3 : b.getLsbD (8 * j + k - 8 * i) = false := BitVec.getLsbD_of_ge b _ (by omega)
    rw [if_neg (by omega)]
    simp [h1, h2, h3, hlt, BitVec.getLsbD_ushiftRight]

/-- The byte that user programs read at `va`. -/
def byteAt (m : Pmap) (r : ℕ) (va : VA) : Option Byte :=
  (translate m r va).map fun x => getByte (m.mem (ppn x.pte) (wordIx va)) (va.toNat % 8)

/-! ## The address space -/

/-- The slots of a PML4 other than the one through which it maps itself. -/
abbrev Slots : Set Idx := {i | i ≠ 2}

/-- **The address space**, while it is filled: the pages with the numbers `D` are mapped, below 512 GB. -/
structure Space (r : ℕ) (m : Pmap) (fl : List ℕ) (D : Set ℕ) : Prop where
  tree : TreeOk Slots r m fl
  low : ∀ n ∈ D, n < 2 ^ 27
  access : ∀ va, pml4 va = 0 → OpenWalk m r (path va)
  mapped : ∀ va, va < utop → ((∃ x, translate m r va = some x) ↔ va.toNat / 4096 ∈ D)
  user : ∀ va x, va < utop → translate m r va = some x → flag x.pte pteW = true ∧ flag x.pte pteU = true
  fresh : ∀ va x, va < utop → translate m r va = some x → ppn x.pte ∉ fl ∧ ∀ π, ¬ TableAt Slots r m π (ppn x.pte)
  inj : ∀ va va' x x', va < utop → va' < utop → translate m r va = some x → translate m r va' = some x' →
    ppn x.pte = ppn x'.pte → va.toNat / 4096 = va'.toNat / 4096

theorem pml4_low (h : va.toNat < 2 ^ 39) : pml4 va = 0 := by
  rw [Fin.ext_iff, pml4, field_val]
  simp
  omega

theorem below_low (h : va.toNat < 2 ^ 39) : va < utop := by
  rw [BitVec.lt_def, utop_toNat]
  omega

theorem vpn_below (h : va < utop) (h' : va' < utop) : vpn va = vpn va' ↔ va.toNat / 4096 = va'.toNat / 4096 := by
  rw [BitVec.lt_def, utop_toNat] at h h'
  refine ⟨fun hv => ?_, vpn_page⟩
  have h1 := page_of_vpn hv
  omega

/-- A new address space is empty. -/
theorem Space.empty (h : TreeOk Slots r m fl) (h0 : m.mem r 0 = 0)
    (hn : ∀ va, va < utop → translate m r va = none) : Space r m fl ∅ := by
  refine ⟨h, fun n hn => absurd hn (Set.notMem_empty _), fun va hva => ?_, fun va hva => ?_, fun va x hva hx => ?_,
    fun va x hva hx => ?_, fun va va' x x' hva _ hx => ?_⟩
  · unfold path
    rw [openWalk_cons, hva, h0]
    exact fun hp => absurd hp (by decide)
  · rw [hn va hva]
    exact ⟨fun ⟨x, hx⟩ => absurd hx nofun, fun hf => absurd hf (Set.notMem_empty _)⟩
  all_goals
    rw [hn va hva] at hx
    exact absurd hx nofun

/-- What is mapped can be written. -/
theorem Space.writes (h : Space r m fl D) (hva : va < utop) (hD : va.toNat / 4096 ∈ D) : UserWrites m r va := by
  obtain ⟨x, hx⟩ := (h.mapped va hva).2 hD
  have h1 := h.low _ hD
  have h2 := h.access va (pml4_low (by omega))
  obtain ⟨hu, hw⟩ := (translate_open hx).2 ⟨h2, h.user va x hva hx⟩
  exact ⟨x, hx, hu, hw⟩

/-- The bytes of the pages `D` are as before. -/
def Kept (r : ℕ) (m m' : Pmap) (D : Set ℕ) : Prop :=
  ∀ va, va < utop → va.toNat / 4096 ∈ D → byteAt m' r va = byteAt m r va

/-- **A page more**: `region_alloc` maps a page that was not mapped, and disturbs no other. -/
theorem Space.page (h : Space r m fl D) (hva : va.toNat < 2 ^ 39) (hD : va.toNat / 4096 ∉ D)
    (hs : regionAllocPage r m va = some m') :
    ∃ fl', Space r m' fl' (insert (va.toNat / 4096) D) ∧ Kept r m m' D := by
  have hbelow : ∀ {va'}, va' < utop → pml4 va' ∈ Slots := fun h => pml4_below h
  have hn : translate m r va = none := by
    rw [Option.eq_none_iff_forall_not_mem]
    exact fun x hx => hD ((h.mapped va (below_low hva)).1 ⟨x, hx⟩)
  obtain ⟨fl', p, hp⟩ := h.tree.regionAllocPage (hbelow (below_low hva)) hn hs
  have hlt : p < 2 ^ 52 := h.tree.free.lt_two hp.page
  -- an address is in the new page, or translates as before
  have hcases : ∀ va', va' < utop → va'.toNat / 4096 = va.toNat / 4096 ∧
      (∃ x, translate m' r va' = some x ∧ x.pte = mkPte p (pteW ||| pteU)) ∨
      va'.toNat / 4096 ≠ va.toNat / 4096 ∧ translate m' r va' = translate m r va' := by
    intro va' hva'
    by_cases hv : vpn va' = vpn va
    · refine Or.inl ⟨(vpn_below hva' (below_low hva)).1 hv, ?_⟩
      rw [translate_vpn hv]
      exact Option.map_eq_some_iff.1 hp.entry
    · exact Or.inr ⟨fun hc => hv ((vpn_below hva' (below_low hva)).2 hc), hp.others va' (hbelow hva') hv⟩
  have hpte : ppn (mkPte p (pteW ||| pteU)) = p := ppn_mkPte hlt permOk_region
  -- old pages are apart from what was free
  have hold : ∀ va' x, va' < utop → translate m r va' = some x → ppn x.pte ≠ p := by
    rintro va' x hva' hx rfl
    exact (h.fresh va' x hva' hx).1 hp.page
  refine ⟨fl', ⟨hp.tree, ?_, ?_, ?_, ?_, ?_, ?_⟩, ?_⟩
  · rintro n (rfl | hn)
    · omega
    · exact h.low n hn
  · intro va' hva'
    exact (hp.access va' (by rw [hva']; decide)).2 (h.access va' hva')
  · intro va' hva'
    rcases hcases va' hva' with ⟨h1, x, hx, -⟩ | ⟨h1, hx⟩
    · exact ⟨fun _ => Or.inl h1, fun _ => ⟨x, hx⟩⟩
    · rw [hx, h.mapped va' hva']
      exact ⟨Or.inr, fun hc => hc.resolve_left h1⟩
  · intro va' x hva' hx
    rcases hcases va' hva' with ⟨-, y, hy, hpy⟩ | ⟨-, hy⟩
    · cases hx.symm.trans hy
      rw [hpy, flag_mkPte_w, flag_mkPte_u]
      decide
    · exact h.user va' x hva' (hy ▸ hx)
  · intro va' x hva' hx
    rcases hcases va' hva' with ⟨-, y, hy, hpy⟩ | ⟨-, hy⟩
    · cases hx.symm.trans hy
      rw [hpy, hpte]
      exact ⟨hp.kept, fun π ht => (hp.tables π p ht).1 rfl⟩
    · obtain ⟨h1, h2⟩ := h.fresh va' x hva' (hy ▸ hx)
      exact ⟨fun hf => h1 (hp.sub _ hf), fun π ht => (hp.tables π _ ht).2.elim (h2 π) h1⟩
  · intro va₁ va₂ x₁ x₂ hva₁ hva₂ hx₁ hx₂ he
    rcases hcases va₁ hva₁ with ⟨h1, y, hy, hpy⟩ | ⟨h1, hy⟩ <;>
      rcases hcases va₂ hva₂ with ⟨h2, z, hz, hpz⟩ | ⟨h2, hz⟩
    · exact h1.trans h2.symm
    · cases hx₁.symm.trans hy
      rw [hpy, hpte] at he
      exact absurd he.symm (hold va₂ x₂ hva₂ (hz ▸ hx₂))
    · cases hx₂.symm.trans hz
      rw [hpz, hpte] at he
      exact absurd he (hold va₁ x₁ hva₁ (hy ▸ hx₁))
    · exact h.inj va₁ va₂ x₁ x₂ hva₁ hva₂ (hy ▸ hx₁) (hz ▸ hx₂) he
  · intro va' hva' hD'
    rcases hcases va' hva' with ⟨h1, -⟩ | ⟨-, hx⟩
    · rw [h1] at hD'
      exact absurd hD' hD
    · unfold byteAt
      rw [hx]
      cases hy : translate m r va' with
      | none => rfl
      | some y =>
        obtain ⟨h1, h2⟩ := h.fresh va' y hva' hy
        rw [Option.map_some, Option.map_some, hp.frame _ h1 h2]

/-! ## Stores -/

/-- **A store of a byte** to a page that is mapped. -/
theorem Space.store (h : Space r m fl D) (hva : va < utop) (hD : va.toNat / 4096 ∈ D) :
    ∃ m', storeByte m r va b = some m' ∧ Space r m' fl D ∧ byteAt m' r va = some b ∧
      ∀ va', va' < utop → va' ≠ va → byteAt m' r va' = byteAt m r va' := by
  obtain ⟨x, hx, hu, hw⟩ := h.writes hva hD
  obtain ⟨hfl, htab⟩ := h.fresh va x hva hx
  obtain ⟨v, hv⟩ : ∃ v, v = setByte (m.mem (ppn x.pte) (wordIx va)) (va.toNat % 8) b := ⟨_, rfl⟩
  have hs : storeByte m r va b = some (m.write (ppn x.pte) (wordIx va) v) := by
    unfold storeByte storeWord
    simp only [hx, Option.bind_eq_bind, Option.bind_some, hu, hw, Bool.true_or, Bool.and_self, if_true]
    rw [hv]
    rfl
  -- the page of the address is no table, so that no walk changes
  have hm : ∀ π t, TableAt Slots r m π t → (m.write (ppn x.pte) (wordIx va) v).mem t = m.mem t := by
    intro π t ht
    funext j
    refine Pmap.write_mem_of_ne ?_
    rintro ⟨rfl, -⟩
    exact htab π ht
  obtain ⟨hok, hat, htr⟩ := h.tree.off hm (h.tree.free.congr rfl rfl rfl) h.tree.notFree rfl
  have htr' : ∀ va', va' < utop → translate (m.write (ppn x.pte) (wordIx va) v) r va' = translate m r va' :=
    fun va' hva' => htr va' (pml4_below hva')
  refine ⟨_, hs, ⟨hok, h.low, ?_, ?_, ?_, ?_, ?_⟩, ?_, ?_⟩
  · intro va' hva'
    have h1 : pml4 va' ∈ Slots := by
      rw [hva']
      decide
    exact (openWalk_frame (fun π t i ht _ => by rw [hm π t ht]) tableAt_root (inSlots_path h1)).2 (h.access va' hva')
  · intro va' hva'
    rw [htr' va' hva']
    exact h.mapped va' hva'
  · intro va' y hva' hy
    exact h.user va' y hva' (htr' va' hva' ▸ hy)
  · intro va' y hva' hy
    obtain ⟨h1, h2⟩ := h.fresh va' y hva' (htr' va' hva' ▸ hy)
    exact ⟨h1, fun π ht => h2 π ((hat π _).1 ht)⟩
  · intro va₁ va₂ x₁ x₂ hva₁ hva₂ hx₁ hx₂ he
    exact h.inj va₁ va₂ x₁ x₂ hva₁ hva₂ (htr' va₁ hva₁ ▸ hx₁) (htr' va₂ hva₂ ▸ hx₂) he
  · unfold byteAt
    rw [htr' va hva, hx, Option.map_some, Pmap.write_mem_self, hv,
      getByte_setByte (Nat.mod_lt _ (by decide)) (Nat.mod_lt _ (by decide)), if_pos rfl]
  · intro va' hva' hne
    unfold byteAt
    rw [htr' va' hva']
    cases hy : translate m r va' with
    | none => rfl
    | some y =>
      rw [Option.map_some, Option.map_some]
      by_cases hc : ppn y.pte = ppn x.pte ∧ wordIx va' = wordIx va
      · -- another byte of the same word
        have h1 := h.inj va' va y x hva' hva hy hx hc.1
        have h2 : va'.toNat / 8 % 512 = va.toNat / 8 % 512 := congrArg Fin.val hc.2
        have h3 : va'.toNat ≠ va.toNat := fun he => hne (BitVec.eq_of_toNat_eq he)
        rw [hc.1, hc.2, Pmap.write_mem_self, hv,
          getByte_setByte (Nat.mod_lt _ (by decide)) (Nat.mod_lt _ (by decide)), if_neg (by omega)]
      · rw [Pmap.write_mem_of_ne hc]

/-- The address `i` bytes after `a`. -/
theorem toNat_after (va : VA) (i : ℕ) (h : va.toNat + i < 2 ^ 64) : (va + BitVec.ofNat 64 i).toNat = va.toNat + i := by
  rw [BitVec.toNat_add, BitVec.toNat_ofNat]
  omega

/-- **A store of some bytes** to pages that are mapped. -/
theorem Space.stores (h : Space r m fl D) (va : VA) (bs : List Byte) (hb : va.toNat + bs.length ≤ 2 ^ 39)
    (hD : ∀ i < bs.length, (va.toNat + i) / 4096 ∈ D) : ∃ m', storeBytes m r va bs = some m' ∧ Space r m' fl D ∧
      (∀ i (hi : i < bs.length), byteAt m' r (va + BitVec.ofNat 64 i) = some (bs.get ⟨i, hi⟩)) ∧
      ∀ va', va' < utop → va'.toNat < va.toNat ∨ va.toNat + bs.length ≤ va'.toNat →
        byteAt m' r va' = byteAt m r va' := by
  induction bs generalizing m va with
  | nil => exact ⟨m, rfl, h, fun i hi => absurd hi (Nat.not_lt_zero i), fun _ _ _ => rfl⟩
  | cons b bs ih =>
    rw [List.length_cons] at hb hD
    obtain ⟨m₁, h1, h2, h3, h4⟩ := h.store (b := b) (below_low (by omega)) (hD 0 (by omega))
    have hva : (va + 1).toNat = va.toNat + 1 := toNat_after va 1 (by omega)
    obtain ⟨m', h5, h6, h7, h8⟩ := ih h2 (va + 1) (by omega) fun i hi => by
      have h9 := hD (i + 1) (by omega)
      rw [hva]
      rw [show va.toNat + 1 + i = va.toNat + (i + 1) by omega]
      exact h9
    refine ⟨m', ?_, h6, fun i hi => ?_, fun va' hva' hout => ?_⟩
    · unfold storeBytes
      rw [h1]
      exact h5
    · cases i with
      | zero =>
        rw [BitVec.add_zero, h8 va (below_low (by omega)) (Or.inl (by omega))]
        exact h3
      | succ i =>
        have h9 := h7 i (by rw [List.length_cons] at hi; omega)
        rw [BitVec.add_assoc, show (1 : BitVec 64) = BitVec.ofNat 64 1 by rfl, ← BitVec.ofNat_add, Nat.add_comm 1 i] at h9
        exact h9
    · rw [List.length_cons] at hout
      rw [h8 va' hva' (by omega)]
      refine h4 va' hva' ?_
      rintro rfl
      omega

/-! ## Regions -/

/-- The pages that `len` bytes from `a` on are rounded to. -/
def rounded (a len : ℕ) : Set ℕ := {n | a / 4096 ≤ n ∧ n * 4096 < a + len}

/-- **Some pages more.** -/
theorem Space.pages {l : List VA} (h : Space r m fl D) (hl : ∀ a ∈ l, a.toNat < 2 ^ 39 ∧ a.toNat / 4096 ∉ D)
    (hne : l.Pairwise fun a b => a.toNat / 4096 ≠ b.toNat / 4096) (hs : l.foldlM (regionAllocPage r) m = some m') :
    ∃ fl', Space r m' fl' (D ∪ {n | ∃ a ∈ l, a.toNat / 4096 = n}) ∧ Kept r m m' D := by
  induction l generalizing m fl D with
  | nil =>
    cases hs
    refine ⟨fl, ?_, fun _ _ _ => rfl⟩
    simpa using h
  | cons a l ih =>
    rw [List.foldlM_cons] at hs
    obtain ⟨m₁, h1, hs⟩ := Option.bind_eq_some_iff.1 hs
    obtain ⟨ha, hal⟩ := hl a List.mem_cons_self
    obtain ⟨hhead, hne⟩ := List.pairwise_cons.1 hne
    obtain ⟨fl₁, h2, h3⟩ := h.page ha hal h1
    have hl₁ : ∀ b ∈ l, b.toNat < 2 ^ 39 ∧ b.toNat / 4096 ∉ insert (a.toNat / 4096) D := by
      intro b hb
      obtain ⟨hb1, hb2⟩ := hl b (List.mem_cons_of_mem _ hb)
      refine ⟨hb1, ?_⟩
      rintro (hc | hc)
      · exact hhead b hb hc.symm
      · exact hb2 hc
    obtain ⟨fl', h4, h5⟩ := ih h2 hl₁ hne hs
    refine ⟨fl', ?_, fun va hva hD => ?_⟩
    · have h6 : D ∪ {n | ∃ b ∈ a :: l, b.toNat / 4096 = n} =
          insert (a.toNat / 4096) D ∪ {n | ∃ b ∈ l, b.toNat / 4096 = n} := by
        ext n
        simp only [List.mem_cons, exists_eq_or_imp, Set.mem_union, Set.mem_insert_iff, Set.mem_ofPred_eq,
          eq_comm (a := n)]
        tauto
      rw [h6]
      exact h4
    · rw [h5 va hva (Or.inr hD)]
      exact h3 va hva hD

/-- The pages of a region, one after the other. -/
theorem pagesFrom_rounded {len : VA} (h : va.toNat + len.toNat < 2 ^ 39) :
    (pagesFrom (roundDown va pgsize) (roundUp (va + len) pgsize)) =
      (List.range ((va.toNat + len.toNat + 4095) / 4096 - va.toNat / 4096)).map
        fun i => BitVec.ofNat 64 ((va.toNat / 4096 + i) * 4096) := by
  have h1 : (va + len).toNat = va.toNat + len.toNat := by
    rw [BitVec.toNat_add]
    omega
  have h2 : (roundUp (va + len) pgsize).toNat = pageUp (va + len).toNat := roundUp_pageUp (by omega)
  rw [h1] at h2
  unfold pagesFrom
  rw [h2, roundDown_toNat]
  have h3 : (pageUp (va.toNat + len.toNat) - va.toNat / 4096 * 4096) / 4096 =
      (va.toNat + len.toNat + 4095) / 4096 - va.toNat / 4096 := by
    unfold pageUp
    omega
  rw [h3]
  refine List.map_congr_left fun i hi => ?_
  rw [List.mem_range] at hi
  apply BitVec.eq_of_toNat_eq
  rw [BitVec.toNat_add, roundDown_toNat, BitVec.toNat_ofNat, BitVec.toNat_ofNat]
  omega

/-- **A region more.** -/
theorem Space.region {k k' : Kernel} {e : EnvIdx} {len : VA} (h : Space r k.pm fl D)
    (hr : (k.envs e).envPml4e = some r) (hb : va.toNat + len.toNat < 2 ^ 39)
    (hD : Disjoint (rounded va.toNat len.toNat) D) (hs : regionAlloc k e va len = some k') :
    k'.envs = k.envs ∧ ∃ fl', Space r k'.pm fl' (D ∪ rounded va.toNat len.toNat) ∧ Kept r k.pm k'.pm D := by
  unfold regionAlloc at hs
  rw [hr] at hs
  simp only [Option.bind_eq_bind, Option.bind_some] at hs
  obtain ⟨m', hm, hs⟩ := Option.bind_eq_some_iff.1 hs
  cases hs
  have hpages := pagesFrom_rounded hb
  have hnum : ∀ i, i < (va.toNat + len.toNat + 4095) / 4096 - va.toNat / 4096 →
      (BitVec.ofNat 64 ((va.toNat / 4096 + i) * 4096)).toNat = (va.toNat / 4096 + i) * 4096 := by
    intro i hi
    rw [BitVec.toNat_ofNat]
    omega
  have hset : {n | ∃ a ∈ pagesFrom (roundDown va pgsize) (roundUp (va + len) pgsize), a.toNat / 4096 = n} =
      rounded va.toNat len.toNat := by
    ext n
    rw [hpages]
    unfold rounded
    simp only [List.mem_map, List.mem_range, exists_exists_and_eq_and, Set.mem_ofPred_eq]
    constructor
    · rintro ⟨i, hi, rfl⟩
      rw [hnum i hi]
      omega
    · intro hn
      refine ⟨n - va.toNat / 4096, by omega, ?_⟩
      rw [hnum _ (by omega)]
      omega
  have hlow : ∀ a ∈ pagesFrom (roundDown va pgsize) (roundUp (va + len) pgsize),
      a.toNat < 2 ^ 39 ∧ a.toNat / 4096 ∉ D := by
    intro a ha
    have h1 : a.toNat / 4096 ∈ rounded va.toNat len.toNat := by
      rw [← hset]
      exact ⟨a, ha, rfl⟩
    refine ⟨?_, fun hc => Set.disjoint_left.1 hD h1 hc⟩
    have h2 := h1.2
    omega
  have hne : (pagesFrom (roundDown va pgsize) (roundUp (va + len) pgsize)).Pairwise fun a b =>
      a.toNat / 4096 ≠ b.toNat / 4096 := by
    rw [hpages, List.pairwise_map]
    refine List.pairwise_lt_range.imp_of_mem fun ha hb hab => ?_
    rw [List.mem_range] at ha hb
    rw [hnum _ ha, hnum _ hb]
    omega
  obtain ⟨fl', h1, h2⟩ := h.pages hlow hne hm
  rw [hset] at h1
  exact ⟨rfl, fl', h1, h2⟩

/-! ## Segments -/

variable {k k' : Kernel} {e : EnvIdx} {binary : Bytes} {ph : Proghdr} {phs : List Proghdr}

/-- The pages that a segment is rounded to. -/
def Proghdr.rounded (ph : Proghdr) : Set ℕ := Icode.rounded ph.pVa.toNat ph.pMemsz.toNat

/-- The bytes of a segment are in memory. -/
def Loaded (binary : Bytes) (r : ℕ) (m : Pmap) (ph : Proghdr) : Prop :=
  ∀ o < ph.pMemsz.toNat, byteAt m r (ph.pVa + BitVec.ofNat 64 o) =
    some (if o < ph.pFilesz.toNat then binary.byte (ph.pOffset.toNat + o) else 0)

/-- A segment in the lower part of the address space, with no more bytes in the file than in memory. -/
structure Proghdr.Fits (ph : Proghdr) : Prop where
  size : ph.pFilesz.toNat ≤ ph.pMemsz.toNat
  below : ph.pVa.toNat + ph.pMemsz.toNat ≤ (ustacktop - pgsize).toNat

theorem stack_toNat : (ustacktop - pgsize).toNat = 0xef7fd000 := by decide

/-- The page of a byte of a region. -/
theorem rounded_byte {a len : ℕ} (h : i < len) : (a + i) / 4096 ∈ rounded a len := by
  constructor
  · omega
  · have h1 := Nat.div_mul_le_self (a + i) 4096
    omega

theorem Loaded.kept (h : Loaded binary r m ph) (hf : ph.Fits) (hk : Kept r m m' D) (hD : ph.rounded ⊆ D) :
    Loaded binary r m' ph := by
  intro o ho
  have h1 := hf.below
  rw [stack_toNat] at h1
  have h2 := toNat_after ph.pVa o (by omega)
  rw [hk _ (below_low (by omega)) ?_]
  · exact h o ho
  · rw [h2]
    exact hD (rounded_byte ho)

/-- **A segment** is loaded into pages of its own. -/
theorem Space.segment (h : Space r k.pm fl D) (hr : (k.envs e).envPml4e = some r) (hf : ph.Fits)
    (hD : Disjoint ph.rounded D) (hp : ph.pType = elfProgLoad) (hs : loadSegment binary e k ph = some k') :
    k'.envs = k.envs ∧ ∃ fl', Space r k'.pm fl' (D ∪ ph.rounded) ∧ Kept r k.pm k'.pm D ∧ Loaded binary r k'.pm ph := by
  have hb := hf.below
  have hsz := hf.size
  rw [stack_toNat] at hb
  unfold loadSegment at hs
  rw [if_pos hp] at hs
  obtain ⟨k₁, h1, hs⟩ := Option.bind_eq_some_iff.1 hs
  obtain ⟨he, fl₁, h2, hk₁⟩ := h.region hr (by omega) hD h1
  rw [he, hr] at hs
  simp only [Option.bind_eq_bind, Option.bind_some] at hs
  -- the bytes from the file
  have hlen : (binary.read ph.pOffset.toNat ph.pFilesz.toNat).length = ph.pFilesz.toNat := by
    simp [Bytes.read]
  obtain ⟨m₁, h3, h4, h5, h6⟩ := h2.stores ph.pVa (binary.read ph.pOffset.toNat ph.pFilesz.toNat)
    (by omega) fun i hi => Or.inr (rounded_byte (by omega))
  -- and the bytes that are cleared
  have hva : (ph.pVa + ph.pFilesz).toNat = ph.pVa.toNat + ph.pFilesz.toNat := by
    rw [BitVec.toNat_add]
    omega
  have hn : (ph.pMemsz - ph.pFilesz).toNat = ph.pMemsz.toNat - ph.pFilesz.toNat := by bv_omega
  obtain ⟨m₂, h7, h8, h9, h10⟩ := h4.stores (ph.pVa + ph.pFilesz)
    (List.replicate (ph.pMemsz - ph.pFilesz).toNat 0) (by rw [List.length_replicate]; omega) fun i hi => by
      rw [List.length_replicate] at hi
      rw [hva, Nat.add_assoc]
      exact Or.inr (rounded_byte (by omega))
  unfold memmove memset at hs
  rw [h3, Option.bind_some, h7, Option.bind_some] at hs
  cases hs
  refine ⟨he, fl₁, h8, fun va hva' hv => ?_, fun o ho => ?_⟩
  · have h11 : va.toNat / 4096 ∉ ph.rounded := fun hc => Set.disjoint_left.1 hD hc hv
    have h12 : ¬ (ph.pVa.toNat ≤ va.toNat ∧ va.toNat < ph.pVa.toNat + ph.pMemsz.toNat) := by
      rintro ⟨h13, h14⟩
      have h15 : va.toNat - ph.pVa.toNat < ph.pMemsz.toNat := by omega
      have h16 := rounded_byte (a := ph.pVa.toNat) h15
      rw [Nat.add_sub_cancel' h13] at h16
      exact h11 h16
    rw [Kernel.setPm_pm, h10 va hva' (by rw [List.length_replicate]; omega), h6 va hva' (by omega)]
    exact hk₁ va hva' hv
  · have ho' := toNat_after ph.pVa o (by omega)
    rw [Kernel.setPm_pm]
    by_cases hlt : o < ph.pFilesz.toNat
    · rw [if_pos hlt, h10 _ (below_low (by omega)) (Or.inl (by omega)), h5 o (by omega)]
      simp [Bytes.read]
    · have h11 := h9 (o - ph.pFilesz.toNat) (by rw [List.length_replicate]; omega)
      have h12 : ph.pVa + ph.pFilesz + BitVec.ofNat 64 (o - ph.pFilesz.toNat) = ph.pVa + BitVec.ofNat 64 o := by
        apply BitVec.eq_of_toNat_eq
        rw [toNat_after _ _ (by omega), ho', hva]
        omega
      rw [h12] at h11
      rw [if_neg hlt, h11]
      simp

/-- The segments to load. -/
def loads (phs : List Proghdr) : List Proghdr := phs.filter fun ph => ph.pType = elfProgLoad

theorem loads_cons : loads (ph :: phs) = if ph.pType = elfProgLoad then ph :: loads phs else loads phs := by
  unfold loads
  by_cases h : ph.pType = elfProgLoad
  · rw [List.filter_cons_of_pos (by simpa using h), if_pos h]
  · rw [List.filter_cons_of_neg (by simpa using h), if_neg h]

/-- The pages of some segments. -/
def roundedAll (phs : List Proghdr) : Set ℕ := {n | ∃ ph ∈ phs, n ∈ ph.rounded}

/-- **All segments** are loaded, one after the other. -/
theorem Space.segments (h : Space r k.pm fl D) (hr : (k.envs e).envPml4e = some r) (hf : ∀ ph ∈ loads phs, ph.Fits)
    (hD : ∀ ph ∈ loads phs, Disjoint ph.rounded D)
    (hp : (loads phs).Pairwise fun a b => Disjoint a.rounded b.rounded)
    (hs : phs.foldlM (loadSegment binary e) k = some k') : k'.envs = k.envs ∧
      ∃ fl', Space r k'.pm fl' (D ∪ roundedAll (loads phs)) ∧ Kept r k.pm k'.pm D ∧
        ∀ ph ∈ loads phs, Loaded binary r k'.pm ph := by
  induction phs generalizing k fl D with
  | nil =>
    cases hs
    refine ⟨rfl, fl, ?_, fun _ _ _ => rfl, fun ph hph => absurd hph List.not_mem_nil⟩
    have h1 : D ∪ roundedAll (loads []) = D := by
      ext n
      simp [roundedAll, loads]
    rw [h1]
    exact h
  | cons ph phs ih =>
    rw [List.foldlM_cons] at hs
    obtain ⟨k₁, h1, hs⟩ := Option.bind_eq_some_iff.1 hs
    rw [loads_cons] at hf hD hp ⊢
    by_cases ht : ph.pType = elfProgLoad
    · rw [if_pos ht] at hf hD hp ⊢
      have hph := List.mem_cons_self (a := ph) (l := loads phs)
      obtain ⟨hhead, hp⟩ := List.pairwise_cons.1 hp
      obtain ⟨he, fl₁, h2, h3, h4⟩ := h.segment hr (hf ph hph) (hD ph hph) ht h1
      have hD₁ : ∀ a ∈ loads phs, Disjoint a.rounded (D ∪ ph.rounded) := fun a ha =>
        Set.disjoint_union_right.2 ⟨hD a (List.mem_cons_of_mem _ ha), (hhead a ha).symm⟩
      obtain ⟨he', fl', h5, h6, h7⟩ := ih h2 (by rw [he]; exact hr) (fun a ha => hf a (List.mem_cons_of_mem _ ha))
        hD₁ hp hs
      refine ⟨he'.trans he, fl', ?_, fun va hva hv => ?_, fun a ha => ?_⟩
      · have h8 : D ∪ roundedAll (ph :: loads phs) = D ∪ ph.rounded ∪ roundedAll (loads phs) := by
          ext n
          simp only [roundedAll, List.mem_cons, exists_eq_or_imp, Set.mem_union, Set.mem_ofPred_eq, or_assoc]
        rw [h8]
        exact h5
      · rw [h6 va hva (Or.inl hv)]
        exact h3 va hva hv
      · rcases List.mem_cons.1 ha with rfl | ha
        · exact h4.kept (hf a hph) h6 fun n hn => Or.inr hn
        · exact h7 a ha
    · rw [if_neg ht] at hf hD hp ⊢
      unfold loadSegment at h1
      rw [if_neg ht] at h1
      cases h1
      exact ih h hr hf hD hp hs

/-! ## The image -/

/-- The address space of an environment that was just allocated. -/
structure NewSpace (k : Kernel) (e : EnvIdx) (r : ℕ) (fl : List ℕ) : Prop where
  root : (k.envs e).envPml4e = some r
  tree : TreeOk Slots r k.pm fl
  slot : k.pm.mem r 0 = 0
  empty : ∀ va, va < utop → translate k.pm r va = none

/-- **`env_alloc` makes such an address space**, as long as nothing is mapped in the part below `UTOP`
that the environments share. -/
theorem newSpace_allocated {F : Set ℕ} {K : Vpn → Option PTE} {A : PTE → Prop} {efl : List EnvIdx}
    (h : KInv F K A k (r :: fl) efl) (ha : Allocated k k' e r)
    (hk : ∀ v, User (.kern, v) → view (roots k) k.pm (.kern, v) = none) : NewSpace k' e r fl := by
  obtain ⟨h', hdead⟩ := h.allocated ha
  have hr : roots k' (.env e) = some r := by rw [ha.roots, setRoot_self]
  have h0 : k'.pm.mem r 0 = 0 := by
    rw [ha.pm, rooted_self, if_neg (by decide), if_neg (by decide)]
  refine ⟨ha.root, h'.inv.sound.wf.treeOk hr, h0, fun va hva => ?_⟩
  by_cases hs : pml4 va = 0
  · unfold translate presentAt
    rw [hs, h0]
    rfl
  · have h1 := h'.inv.sound.wf.leafEntry_view hr hva
    have h2 := user_vpn (e := e) hva
    have h3 : ownerOf e va = .kern := if_neg hs
    rw [ha.roots, ha.pm, h.inv.sound.wf.view_rooted (if_neg hdead), h3, hk _ (h3 ▸ h2)] at h1
    rw [ha.pm]
    unfold leafEntry at h1
    exact Option.map_eq_none_iff.1 h1

/-- The page of the initial stack. -/
def stackPage : ℕ := (ustacktop - pgsize).toNat / 4096

/-- **The image of a program**, whose segments are given the pages `pages`. -/
structure Image (pages : Proghdr → Set ℕ) (binary : Bytes) (r : ℕ) (m : Pmap) : Prop where
  bytes : ∀ ph ∈ loads (proghdrs binary), Loaded binary r m ph
  writes : ∀ va, va < utop → ((∃ ph ∈ loads (proghdrs binary), va.toNat / 4096 ∈ pages ph) ∨
    va.toNat / 4096 = stackPage) → UserWrites m r va
  only : ∀ va, va < utop → (∃ x, translate m r va = some x) →
    (∃ ph ∈ loads (proghdrs binary), va.toNat / 4096 ∈ pages ph) ∨ va.toNat / 4096 = stackPage

/-- The segments of a binary have their own pages. -/
structure Segments (pages : Proghdr → Set ℕ) (binary : Bytes) : Prop where
  fits : ∀ ph ∈ loads (proghdrs binary), ph.Fits
  apart : (loads (proghdrs binary)).Pairwise fun a b => Disjoint (pages a) (pages b)

/-- The stack is one page. -/
theorem rounded_stack : rounded (ustacktop - pgsize).toNat pgsize.toNat = {stackPage} := by
  ext n
  have h1 : pgsize.toNat = 4096 := by decide
  unfold rounded stackPage
  rw [Set.mem_ofPred_eq, Set.mem_singleton_iff, h1, stack_toNat]
  omega

/-- **`load_icode` builds the image of the program**, in the pages that the segments are rounded to. -/
theorem image_loaded {elf : VA} (hk : NewSpace k e r fl) (hb : Segments Proghdr.rounded binary)
    (hs : loadIcode k e elf binary = some k') :
    Image Proghdr.rounded binary r k'.pm ∧ (k'.envs e).envTf.tfRip = eEntry binary := by
  have h := Space.empty hk.tree hk.slot hk.empty
  unfold loadIcode at hs
  simp only [Option.bind_eq_bind] at hs
  obtain ⟨k₁, h1, hs⟩ := Option.bind_eq_some_iff.1 hs
  obtain ⟨k₂, h2, hs⟩ := Option.bind_eq_some_iff.1 hs
  have hr₁ : ((k.setEnv e { k.envs e with elf := elf }).envs e).envPml4e = some r := by
    rw [Kernel.setEnv_self]
    exact hk.root
  obtain ⟨he₁, fl₁, h3, -, h5⟩ := Space.segments (k := k.setEnv e { k.envs e with elf := elf }) h hr₁ hb.fits
    (fun ph _ => Set.disjoint_empty _) hb.apart h1
  rw [Set.empty_union] at h3
  -- the stack is above all segments
  have hD : Disjoint (rounded (ustacktop - pgsize).toNat pgsize.toNat) (roundedAll (loads (proghdrs binary))) := by
    rw [rounded_stack, Set.disjoint_singleton_left]
    rintro ⟨ph, hph, -, hn⟩
    have h6 := (hb.fits ph hph).below
    unfold stackPage at hn
    rw [stack_toNat] at h6 hn
    omega
  obtain ⟨he₂, fl₂, h7, h8⟩ := h3.region (e := e) (by rw [he₁]; exact hr₁) (by rw [stack_toNat]; decide) hD h2
  rw [rounded_stack] at h7
  cases hs
  refine ⟨⟨fun ph hph => ?_, fun va hva hp => ?_, fun va hva hx => ?_⟩, ?_⟩
  · exact (h5 ph hph).kept (hb.fits ph hph) h8 fun n hn => ⟨ph, hph, hn⟩
  · exact h7.writes hva hp
  · exact (h7.mapped va hva).1 hx
  · rw [Kernel.setEnv_self]

/-- The pages that hold a byte of a segment. -/
def Proghdr.touched (ph : Proghdr) : Set ℕ := {n | ∃ o < ph.pMemsz.toNat, (ph.pVa.toNat + o) / 4096 = n}

/-- A segment that is not empty is rounded to the pages that it touches. -/
theorem Proghdr.rounded_touched (h : 0 < ph.pMemsz.toNat) : ph.rounded = ph.touched := by
  ext n
  unfold Proghdr.rounded Icode.rounded Proghdr.touched
  simp only [Set.mem_ofPred_eq]
  constructor
  · rintro ⟨h1, h2⟩
    refine ⟨n * 4096 - ph.pVa.toNat, ?_, ?_⟩
    · omega
    · omega
  · rintro ⟨o, ho, rfl⟩
    omega

/-- A binary with one segment, which starts at offset 120. -/
def oneSegment (va filesz memsz : BitVec 64) : Bytes :=
  (((((((((⟨fun _ => 0⟩ : Bytes).store64 24 0x800020).store64 32 64).write 56 [1]).store32 64 1).store64 72 120).store64
    80 va).store64 96 filesz).store64 104 memsz).write 120 [7, 8]

/-- An environment with an empty PML4 in page 1, and 14 free pages. -/
def loaderKernel : Kernel := { bootKernel with
  pm :=
    { npages := 16
      pages := fun n => ⟨if 2 ≤ n ∧ n < 15 then some (n + 1) else none, 0⟩
      pageFreeList := some 2
      mem := fun _ _ => 0
      bootPml4e := 0 }
  envs := fun e => { bootKernel.envs e with envPml4e := some 1, envStatus := .runnable } }

theorem loaderKernel_new : NewSpace loaderKernel 0 1 [2, 3, 4, 5, 6, 7, 8, 9, 10, 11, 12, 13, 14, 15] := by
  refine ⟨rfl, TreeOk.of_empty ⟨by decide, ?_, by decide, by decide, fun p hp => if_neg ?_⟩ (by decide) (by decide)
    fun _ => rfl, rfl, fun va hva => ?_⟩
  · exact .cons (.cons (.cons (.cons (.cons (.cons (.cons (.cons (.cons (.cons (.cons (.cons (.cons (.cons .nil)))))))))))))
  · simp only [List.mem_cons, List.not_mem_nil, or_false, not_or] at hp
    omega
  · have h1 : presentAt loaderKernel.pm 1 (pml4 va) = none :=
      if_neg (show ¬ flag (0 : PTE) pteP = true by decide)
    unfold translate
    rw [h1]
    rfl

theorem oneSegment_loads (va filesz memsz : BitVec 64) (h : loads (proghdrs (oneSegment va filesz memsz)) =
    [⟨1, 120, va, filesz, memsz⟩]) (pages : Proghdr → Set ℕ) (hf : Proghdr.Fits ⟨1, 120, va, filesz, memsz⟩) :
    Segments pages (oneSegment va filesz memsz) := by
  refine ⟨fun ph hph => ?_, ?_⟩
  · rw [h, List.mem_singleton] at hph
    rw [hph]
    exact hf
  · rw [h]
    exact List.pairwise_singleton _ _

/-- Four bytes at the border of two pages, two of them from the file. -/
theorem image_loaded_border : ∃ k', loadIcode loaderKernel 0 0 (oneSegment 0x800ffe 2 4) = some k' ∧
    Image Proghdr.rounded (oneSegment 0x800ffe 2 4) 1 k'.pm ∧ (k'.envs 0).envTf.tfRip = 0x800020 := by
  obtain ⟨k', hk'⟩ := Option.isSome_iff_exists.1
    (show (loadIcode loaderKernel 0 0 (oneSegment 0x800ffe 2 4)).isSome = true by decide)
  have hb := oneSegment_loads 0x800ffe 2 4 (by decide) Proghdr.rounded ⟨by decide, by decide⟩
  have h := image_loaded loaderKernel_new hb hk'
  exact ⟨k', hk', h.1, h.2.trans (by decide)⟩

/-- An empty segment that starts in the middle of a page touches no page, and this page is mapped. -/
theorem image_loaded_counterexample : ¬ ∀ (k k' : Kernel) (e : EnvIdx) (r : ℕ) (fl : List ℕ) (binary : Bytes) (elf : VA),
    NewSpace k e r fl → Segments Proghdr.touched binary → loadIcode k e elf binary = some k' →
    Image Proghdr.touched binary r k'.pm ∧ (k'.envs e).envTf.tfRip = eEntry binary := by
  intro h
  have hmap : (loadIcode loaderKernel 0 0 (oneSegment 0x800010 0 0)).map
      (fun k' => (translate k'.pm 1 0x800000).isSome) = some true := by decide
  obtain ⟨k', hk', hx⟩ := Option.map_eq_some_iff.1 hmap
  have hl : loads (proghdrs (oneSegment 0x800010 0 0)) = [⟨1, 120, 0x800010, 0, 0⟩] := by decide
  have hb := oneSegment_loads 0x800010 0 0 hl Proghdr.touched ⟨by decide, by decide⟩
  obtain ⟨hi, -⟩ := h _ k' 0 1 _ _ 0 loaderKernel_new hb hk'
  rcases hi.only 0x800000 (by decide) (Option.isSome_iff_exists.1 hx) with ⟨ph, hph, o, ho, -⟩ | hs
  · rw [hl, List.mem_singleton] at hph
    rw [hph] at ho
    exact absurd ho (Nat.not_lt_zero o)
  · exact absurd hs (by decide)

end Jos.Icode
