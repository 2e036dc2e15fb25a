import Jos.Proof.Mapping
import Jos.Proof.Sched

/-!
# The fault frame

`page_fault_handler` tests one byte at `utf_addr`, and then stores 160 bytes there. The two agree if
the frame lies in one page: `frameChecked_iff` says that a frame that straddles the lower border of
the exception stack's page needs that page to be writable as well. The other conditions are those of
the test: the walk without `create` must not take a missing table for page 0, and only the last
entry's flags are tested.

The frame's pages are no page tables (`Wf.frameApart`), so that the stores do not pull the mapping
from under themselves.
-/

namespace Jos

open Lib

variable {R : Roots} {S : Set Idx} {m m' : Pmap} {fl : List ℕ} {r t i len : ℕ} {va va' a rsp : VA}
variable {ρ : List Idx} {π : List Idx} {e : EnvIdx} {w : PTE} {x : Translation}

/-! ## Pages -/

/-- An address that user programs may write. -/
def UserWrites (m : Pmap) (r : ℕ) (va : VA) : Prop :=
  ∃ x, translate m r va = some x ∧ x.user = true ∧ x.writeable = true

theorem userWrites_vpn (h : vpn va = vpn va') : UserWrites m r va ↔ UserWrites m r va' := by
  unfold UserWrites
  rw [translate_vpn h]

/-! ## Stores -/

/-- A walk is as before if the words that it reads are. -/
theorem entries_words (h : ∀ x ∈ walkWords m t ρ, m'.mem x.1 x.2 = m.mem x.1 x.2) :
    presentEntries m' t ρ = presentEntries m t ρ ∧ walkWords m' t ρ = walkWords m t ρ := by
  induction ρ generalizing t with
  | nil => exact ⟨rfl, rfl⟩
  | cons i ρ ih =>
    have h1 : m'.mem t i = m.mem t i := h (t, i) List.mem_cons_self
    obtain ⟨h2, h3⟩ := ih (t := ppn (m.mem t i)) fun x hx => h x (List.mem_cons_of_mem _ hx)
    have h4 : presentAt m' t i = presentAt m t i := by
      unfold presentAt
      rw [h1]
    constructor
    · unfold presentEntries
      rw [h4]
      cases he : presentAt m t i with
      | none => rfl
      | some e =>
        obtain ⟨rfl, -⟩ := presentAt_eq_some.1 he
        rw [Option.bind_some, Option.bind_some, h2]
    · unfold walkWords
      rw [h1, h3]

/-- The pages behind some consecutive addresses are not those of tables that they are looked up in. -/
def Apart (m : Pmap) (r : ℕ) (a : VA) (len : ℕ) : Prop :=
  ∀ i < len, ∀ j < len, ∀ x y, translate m r (a + BitVec.ofNat 64 i) = some x →
    translate m r (a + BitVec.ofNat 64 j) = some y →
      ∀ w ∈ walkWords m r (indices (a + BitVec.ofNat 64 j)), w.1 ≠ ppn x.pte

/-- A store of a byte to such a page changes no translation. -/
theorem storeByte_apart {b : BitVec 8} (hu : ∀ i < len, UserWrites m r (a + BitVec.ofNat 64 i))
    (ha : Apart m r a len) (hi : i < len) : ∃ m', storeByte m r (a + BitVec.ofNat 64 i) b = some m' ∧
      ∀ j < len, translate m' r (a + BitVec.ofNat 64 j) = translate m r (a + BitVec.ofNat 64 j) ∧
        walkWords m' r (indices (a + BitVec.ofNat 64 j)) = walkWords m r (indices (a + BitVec.ofNat 64 j)) := by
  obtain ⟨x, hx, hxu, hxw⟩ := hu i hi
  obtain ⟨k, v, hs⟩ : ∃ k v, storeByte m r (a + BitVec.ofNat 64 i) b = some (m.write (ppn x.pte) k v) := by
    unfold storeByte storeWord
    simp only [hx, Option.bind_eq_bind, Option.bind_some, hxu, hxw, Bool.true_or, Bool.and_self, if_true]
    exact ⟨_, _, rfl⟩
  refine ⟨_, hs, fun j hj => ?_⟩
  obtain ⟨y, hy, -⟩ := hu j hj
  have h1 := ha i hi j hj x y hx hy
  have hw : ∀ w ∈ walkWords m r (indices (a + BitVec.ofNat 64 j)),
      (m.write (ppn x.pte) k v).mem w.1 w.2 = m.mem w.1 w.2 := fun w hw =>
    Pmap.write_mem_of_ne fun hc => h1 w hw hc.1
  obtain ⟨h2, h3⟩ := entries_words hw
  exact ⟨translate_of_entries h2, h3⟩

theorem storeBytes_apart {bs : List (BitVec 8)} (hu : ∀ i < len, UserWrites m r (a + BitVec.ofNat 64 i))
    (ha : Apart m r a len) (hl : i + bs.length = len) :
    ∃ m', storeBytes m r (a + BitVec.ofNat 64 i) bs = some m' := by
  induction bs generalizing m i with
  | nil => exact ⟨m, rfl⟩
  | cons b bs ih =>
    rw [List.length_cons] at hl
    obtain ⟨m₁, h1, h2⟩ := storeByte_apart (b := b) (i := i) hu ha (by omega)
    have hu₁ : ∀ j < len, UserWrites m₁ r (a + BitVec.ofNat 64 j) := by
      intro j hj
      unfold UserWrites
      rw [(h2 j hj).1]
      exact hu j hj
    have ha₁ : Apart m₁ r a len := by
      intro j hj k hk x y hx hy
      rw [(h2 j hj).1] at hx
      rw [(h2 k hk).1] at hy
      rw [(h2 k hk).2]
      exact ha j hj k hk x y hx hy
    obtain ⟨m', h3⟩ := ih (i := i + 1) hu₁ ha₁ (by omega)
    refine ⟨m', ?_⟩
    have h4 : a + BitVec.ofNat 64 i + 1 = a + BitVec.ofNat 64 (i + 1) := by
      rw [BitVec.add_assoc, BitVec.ofNat_add]
      rfl
    unfold storeBytes
    rw [h1, h4]
    exact h3

/-! ## The frame -/

/-- Byte `i` of the frame that a fault at `rsp` gets. -/
def frameByte (rsp : VA) (i : ℕ) : VA := utfAddr rsp + BitVec.ofNat 64 i

/-- The frame has bytes on both sides of the lower border of the exception stack's page. -/
def Straddles (rsp : VA) : Prop := uxstacktop - pgsize + 4 < rsp ∧ rsp < uxstacktop - pgsize + 164

theorem utfAddr_toNat (rsp : VA) : (utfAddr rsp).toNat =
    if 0xef7ff000 ≤ rsp.toNat ∧ rsp.toNat < 0xef800000 then rsp.toNat - 164 else 0xef7fff60 := by
  have h1 : (uxstacktop - pgsize ≤ rsp ∧ rsp ≤ uxstacktop - 1) ↔
      0xef7ff000 ≤ rsp.toNat ∧ rsp.toNat < 0xef800000 := by
    unfold uxstacktop pgsize
    rw [BitVec.le_def, BitVec.le_def]
    change 0xef7ff000 ≤ rsp.toNat ∧ rsp.toNat ≤ 0xef7fffff ↔ _
    omega
  unfold utfAddr
  split
  · rename_i h
    rw [if_pos (h1.1 h)]
    have h2 := h1.1 h
    unfold utfSize
    bv_omega
  · rename_i h
    rw [if_neg fun h2 => h (h1.2 h2)]
    rfl

theorem frameByte_toNat (rsp : VA) (hi : i < 160) : (frameByte rsp i).toNat = (utfAddr rsp).toNat + i := by
  have h1 := utfAddr_toNat rsp
  unfold frameByte
  rw [BitVec.toNat_add, BitVec.toNat_ofNat]
  split at h1 <;> omega

theorem straddles_iff : Straddles rsp ↔ 0xef7ff004 < rsp.toNat ∧ rsp.toNat < 0xef7ff0a4 := by
  unfold Straddles uxstacktop pgsize
  rw [BitVec.lt_def, BitVec.lt_def]
  exact Iff.rfl

/-- A byte of the frame is in the page of `utf_addr`, or in the exception stack's. -/
theorem frameByte_page (rsp : VA) (hi : i < 160) : vpn (frameByte rsp i) = vpn (utfAddr rsp) ∨
    Straddles rsp ∧ vpn (frameByte rsp i) = vpn (uxstacktop - pgsize) := by
  have h1 := utfAddr_toNat rsp
  have h2 := frameByte_toNat rsp hi
  have h3 : (uxstacktop - pgsize).toNat = 0xef7ff000 := rfl
  by_cases h : (frameByte rsp i).toNat / 4096 = (utfAddr rsp).toNat / 4096
  · exact Or.inl (vpn_page h)
  · refine Or.inr ⟨straddles_iff.2 ?_, vpn_page ?_⟩
    · split at h1 <;> omega
    · rw [h3]
      split at h1 <;> omega

/-- The last byte of a frame that straddles the border is above it. -/
theorem frameByte_last (h : Straddles rsp) : vpn (frameByte rsp 159) = vpn (uxstacktop - pgsize) := by
  have h1 := utfAddr_toNat rsp
  have h2 := frameByte_toNat rsp (show 159 < 160 by decide)
  have h3 : (uxstacktop - pgsize).toNat = 0xef7ff000 := rfl
  have h4 := straddles_iff.1 h
  refine vpn_page ?_
  rw [h3]
  split at h1 <;> omega

/-! ## The test -/

/-- The page of `utf_addr`. -/
def framePage (rsp : VA) : VA := roundDown (utfAddr rsp) pgsize

theorem framePage_vpn : vpn (framePage rsp) = vpn (utfAddr rsp) := by
  apply vpn_page
  unfold framePage
  rw [roundDown_toNat]
  omega

/-- `PTE_W | PTE_U`, as `user_mem_assert` passes it on. -/
theorem and_write_user : w &&& (pteW ||| pteU : BitVec 32).signExtend 64 = (pteW ||| pteU : BitVec 32).signExtend 64 ↔
    flag w pteW = true ∧ flag w pteU = true := by
  have h1 : (pteW ||| pteU : BitVec 32).signExtend 64 = 6#64 := by decide
  have h2 : ∀ i < 64, (6#64).getLsbD i = (decide (i = 1) || decide (i = 2)) := by decide
  rw [h1]
  have hw : flag w pteW = w.getLsbD 1 := flag_twoPow w 1 (by decide)
  have hu : flag w pteU = w.getLsbD 2 := flag_twoPow w 2 (by decide)
  rw [hw, hu]
  constructor
  · intro h
    have h3 := congrArg (·.getLsbD 1) h
    have h4 := congrArg (·.getLsbD 2) h
    simpa using And.intro h3 h4
  · rintro ⟨h3, h4⟩
    apply BitVec.eq_of_getLsbD_eq
    intro i hi
    rw [BitVec.getLsbD_and, h2 i hi]
    by_cases h5 : i = 1
    · subst h5
      simp [h3]
    · by_cases h6 : i = 2
      · subst h6
        simp [h4]
      · simp [h5, h6]

/-- The entries above the leaf let user programs write. -/
def UpperWrites (m : Pmap) (r : ℕ) (va : VA) : Prop := ∀ w ∈ walkWords m r (path va),
  flag (m.mem w.1 w.2) pteP = true ∧ flag (m.mem w.1 w.2) pteW = true ∧ flag (m.mem w.1 w.2) pteU = true

/-- **What a word that passes the test says**, and what it does not. -/
theorem userWrites_iff (hw : leafWord m r va = some w) : UserWrites m r va ↔
    UpperWrites m r va ∧ flag w pteP = true ∧ flag w pteW = true ∧ flag w pteU = true := by
  have h1 := leafWord_some hw
  unfold UpperWrites path
  simp only [walkWords, List.mem_cons, List.not_mem_nil, or_false, forall_eq_or_imp, forall_eq]
  constructor
  · rintro ⟨x, hx, hu, hwr⟩
    obtain ⟨e₄, h4, hx⟩ := Option.bind_eq_some_iff.1 hx
    obtain ⟨rfl, p4⟩ := presentAt_eq_some.1 h4
    obtain ⟨e₃, h3, hx⟩ := Option.bind_eq_some_iff.1 hx
    obtain ⟨rfl, p3⟩ := presentAt_eq_some.1 h3
    obtain ⟨e₂, h2, hx⟩ := Option.bind_eq_some_iff.1 hx
    obtain ⟨rfl, p2⟩ := presentAt_eq_some.1 h2
    obtain ⟨e₁, h0, hx⟩ := Option.bind_eq_some_iff.1 hx
    obtain ⟨rfl, p1⟩ := presentAt_eq_some.1 h0
    cases hx
    rw [← h1] at p1 hu hwr
    simp only [Bool.and_eq_true] at hu hwr
    obtain ⟨⟨⟨u4, u3⟩, u2⟩, u1⟩ := hu
    obtain ⟨⟨⟨w4, w3⟩, w2⟩, w1⟩ := hwr
    exact ⟨⟨⟨p4, w4, u4⟩, ⟨p3, w3, u3⟩, p2, w2, u2⟩, p1, w1, u1⟩
  · rintro ⟨⟨⟨p4, w4, u4⟩, ⟨p3, w3, u3⟩, p2, w2, u2⟩, p1, w1, u1⟩
    rw [h1] at p1 w1 u1
    unfold UserWrites translate
    simp only [presentAt_of_flag p4, presentAt_of_flag p3, presentAt_of_flag p2, presentAt_of_flag p1,
      Option.bind_eq_bind, Option.bind_some, Option.some.injEq]
    refine ⟨_, rfl, ?_, ?_⟩
    · simp only [u4, u3, u2, u1, Bool.and_self]
    · simp only [w4, w3, w2, w1, Bool.and_self]

/-- The page of `utf_addr` passes the test of `user_mem_assert`. -/
def FrameTested (m : Pmap) (r : ℕ) (rsp : VA) : Prop := Passes m r (pteW ||| pteU) (framePage rsp)

theorem frame_pageCount : pageCount (utfAddr rsp) 1 = 1 := by
  have h1 := utfAddr_toNat rsp
  have h2 : (1 : VA).toNat = 1 := rfl
  rw [pageCount_eq, h2]
  split at h1 <;> omega

/-- **The test** is that of one page. -/
theorem frame_check (hw : leafWord m r (framePage rsp) = some w) : ∃ y,
    userMemCheck m r (utfAddr rsp) 1 (pteW ||| pteU) = some (y, m) ∧ (y = none ↔ FrameTested m r rsp) := by
  rw [userMemCheck_one frame_pageCount]
  by_cases hp : FrameTested m r rsp
  · refine ⟨none, ?_, by simp [hp]⟩
    exact loop_pass (l := []) hp
  · exact ⟨_, loop_fail hw hp, by simp [hp]⟩

theorem frame_tested_word {y : Option VA} (h : userMemCheck m r (utfAddr rsp) 1 (pteW ||| pteU) = some (y, m')) :
    ∃ w, leafWord m r (framePage rsp) = some w := by
  rw [userMemCheck_one frame_pageCount, userMemCheckLoop_cons] at h
  obtain ⟨w, hw, -⟩ := Option.bind_eq_some_iff.1 h
  exact ⟨w, hw⟩

/-! ## The handler -/

namespace Machine

variable {n : ℕ} {s : Machine n} {c : Fin n} {cur : EnvIdx} {tf : Trapframe} {io : Io}

/-- **The frame is checked**: if `page_fault_handler` gets past `user_mem_assert`, then user
programs may write all bytes of the frame, and the kernel stores it without a fault; otherwise it
destroys the environment. -/
structure FrameChecked (s : Machine n) (c : Fin n) (cur : EnvIdx) (tf : Trapframe) (io : Io) (r : ℕ) :
    Prop where
  noUpcall : (s.k.envs cur).envPgfaultUpcall = 0 → s.pageFaultHandler c cur tf io = s.envDestroy c cur
  tested : (s.k.envs cur).envPgfaultUpcall ≠ 0 → ∃ y,
    userMemCheck s.k.pm r (utfAddr tf.tfRsp) 1 (pteW ||| pteU) = some (y, s.k.pm) ∧
    (y ≠ none → s.pageFaultHandler c cur tf io = s.envDestroy c cur) ∧
    (y = none → (∀ i < 160, UserWrites s.k.pm r (frameByte tf.tfRsp i)) ∧
      (Apart s.k.pm r (utfAddr tf.tfRsp) 160 → ∃ s', s.pageFaultHandler c cur tf io = some (.left s')))

/-- **The condition**: the walk stays in RAM; if the word at its end passes, then so do the entries
above it, and, for a frame that straddles the border, the page behind the border. -/
structure FrameFits (m : Pmap) (r : ℕ) (rsp : VA) : Prop where
  word : ∃ w, leafWord m r (framePage rsp) = some w
  upper : FrameTested m r rsp → UpperWrites m r (framePage rsp)
  top : FrameTested m r rsp → Straddles rsp → UserWrites m r (uxstacktop - pgsize)

/-- All bytes of the frame may be written. -/
theorem FrameFits.writes {m : Pmap} (h : FrameFits m r rsp) (ht : FrameTested m r rsp) {i : ℕ} (hi : i < 160) :
    UserWrites m r (frameByte rsp i) := by
  rcases frameByte_page rsp hi with h1 | ⟨hs, h1⟩
  · rw [userWrites_vpn (h1.trans framePage_vpn.symm)]
    have hup := h.upper ht
    obtain ⟨-, w, hw, hf, hp⟩ := ht
    obtain ⟨h2, h3⟩ := and_write_user.1 hf
    exact (userWrites_iff hw).2 ⟨hup, hp, h2, h3⟩
  · rw [userWrites_vpn h1]
    exact h.top ht hs

theorem pageFaultHandler_upcall {y : Option VA} (hu : (s.k.envs cur).envPgfaultUpcall ≠ 0)
    (hr : (s.k.envs cur).envPml4e = some r)
    (hy : userMemCheck s.k.pm r (utfAddr tf.tfRsp) 1 (pteW ||| pteU) = some (y, s.k.pm)) :
    s.pageFaultHandler c cur tf io = match y with
      | some _ => s.envDestroy c cur
      | none => (storeBytes s.k.pm r (utfAddr tf.tfRsp) (utfOf tf io.cr2).bytes).bind fun m =>
          let s := s.setK (s.k.setPm m)
          let s := s.setTf cur { tf with tfRip := (s.k.envs cur).envPgfaultUpcall, tfRsp := utfAddr tf.tfRsp }
          some (.left (s.envRun c cur)) := by
  unfold pageFaultHandler
  rw [if_pos hu, hr]
  simp only [Option.bind_eq_bind, Option.bind_some, hy]
  cases y <;> rfl

/-- A frame that is checked passes in its first byte and its last. -/
theorem FrameChecked.fits (h : FrameChecked s c cur tf io r) (hu : (s.k.envs cur).envPgfaultUpcall ≠ 0) :
    FrameFits s.k.pm r tf.tfRsp := by
  obtain ⟨y, hy, -, h⟩ := h.tested hu
  obtain ⟨w, hw⟩ := frame_tested_word hy
  obtain ⟨y', hy', hiff⟩ := frame_check hw
  cases hy.symm.trans hy'
  refine ⟨⟨w, hw⟩, fun ht => ?_, fun ht hs => ?_⟩
  · have h1 := (h (hiff.2 ht)).1 0 (by decide)
    have h2 : vpn (frameByte tf.tfRsp 0) = vpn (framePage tf.tfRsp) := by
      rw [framePage_vpn]
      apply vpn_page
      rw [frameByte_toNat _ (by decide)]
      rfl
    exact ((userWrites_iff hw).1 ((userWrites_vpn h2).1 h1)).1
  · have h1 := (h (hiff.2 ht)).1 159 (by decide)
    exact (userWrites_vpn (frameByte_last hs)).1 h1

/-- **When the fault frame is checked**: if and only if there is no upcall, or the test of one byte
stands for the whole frame. -/
theorem frameChecked_iff (hr : (s.k.envs cur).envPml4e = some r) :
    FrameChecked s c cur tf io r ↔ (s.k.envs cur).envPgfaultUpcall = 0 ∨ FrameFits s.k.pm r tf.tfRsp := by
  constructor
  · intro h
    by_cases hu : (s.k.envs cur).envPgfaultUpcall = 0
    · exact Or.inl hu
    · exact Or.inr (h.fits hu)
  · intro h
    refine ⟨fun hu => ?_, fun hu => ?_⟩
    · unfold pageFaultHandler
      rw [if_neg (not_not.2 hu)]
    · have hf := h.resolve_left hu
      obtain ⟨w, hw⟩ := hf.word
      obtain ⟨y, hy, hiff⟩ := frame_check hw
      refine ⟨y, hy, fun hne => ?_, fun hn => ⟨fun i hi => hf.writes (hiff.1 hn) hi, fun ha => ?_⟩⟩
      · rw [pageFaultHandler_upcall hu hr hy]
        cases y with
        | none => exact absurd rfl hne
        | some a => rfl
      · subst hn
        rw [pageFaultHandler_upcall hu hr hy]
        have h1 : (utfOf tf io.cr2).bytes.length = 160 := by
          unfold UTrapframe.bytes
          rw [flatMap_wordBytes_length]
          rfl
        obtain ⟨m', h2⟩ := storeBytes_apart (i := 0) (fun i hi => hf.writes (hiff.1 rfl) hi) ha
          ((Nat.zero_add _).trans h1)
        rw [BitVec.add_zero] at h2
        simp only [h2, Option.bind_some]
        exact ⟨_, rfl⟩

/-- An environment with an upcall, and the memory `m`. -/
def faultMachine (m : Pmap) : Machine 1 where
  k := { bootKernel with pm := m, envs := fun e => { bootKernel.envs e with
    envPml4e := some 1
    envStatus := .running
    envPgfaultUpcall := 0x800100 } }
  cpus := fun _ => { cpuEnv := some 0, cr3 := 0x1000 }
  log := []

/-- Without an exception stack, the environment is destroyed. -/
theorem frameChecked_unmapped : FrameChecked (faultMachine emptyRoot) 0 0 { tfRsp := 0xef7ff010 } {} 1 := by
  have h1 : ¬ FrameTested emptyRoot 1 0xef7ff010 := by
    rintro ⟨-, w, hw, hf, -⟩
    cases (show leafWord emptyRoot 1 (framePage 0xef7ff010) = some 0 by decide).symm.trans hw
    exact absurd hf (by decide)
  exact (frameChecked_iff rfl).2 (Or.inr ⟨⟨0, by decide⟩, fun ht => absurd ht h1, fun ht => absurd ht h1⟩)

/-- The page below the exception stack's is mapped, and the exception stack's is not. -/
def guardMapped : Pmap := { emptyRoot with
  mem := fun t i =>
    if t = 1 ∧ i = 0 then 0x2007
    else if t = 2 ∧ i = 3 then 0x3007
    else if t = 3 ∧ i = 379 then 0x4007
    else if t = 4 ∧ i = 510 then 0x5007
    else 0
  pageFreeList := none
  pages := fun _ => ⟨none, 1⟩ }

/-- **This fails** for a fault at `rsp = 0xef7ff010`: the frame starts in the page that is
mapped, and ends in the one that is not. -/
theorem frameChecked_counterexample : ¬ ∀ (s : Machine 1) c cur tf io r,
    (s.k.envs cur).envPml4e = some r → FrameChecked s c cur tf io r := by
  intro h
  have h1 := (h (faultMachine guardMapped) 0 0 { tfRsp := 0xef7ff010 } {} 1 rfl).fits (by decide)
  have h2 : FrameTested guardMapped 1 0xef7ff010 := ⟨by decide, 0x5007, by decide, by decide, by decide⟩
  obtain ⟨x, hx, -⟩ := h1.top h2 (straddles_iff.2 (by decide))
  have h3 : (translate guardMapped 1 (uxstacktop - pgsize)).isNone := by decide
  change translate guardMapped 1 _ = some x at hx
  rw [hx] at h3
  cases h3

end Machine

/-! ## Environments -/

/-- The words of a complete walk are in tables. -/
theorem walkWords_tables {l : List PTE} (ht : TableAt S r m π t) (hl : π.length + ρ.length ≤ 4)
    (hS : ∀ i ∈ (π ++ ρ).head?, i ∈ S) (hp : presentEntries m t ρ = some l) :
    ∀ w ∈ walkWords m t ρ, ∃ π', TableAt S r m π' w.1 := by
  induction ρ generalizing π t l with
  | nil => exact fun w hw => absurd hw List.not_mem_nil
  | cons i ρ ih =>
    intro w hw
    rcases List.mem_cons.1 hw with rfl | hw
    · exact ⟨π, ht⟩
    · obtain ⟨e, he, hp⟩ := Option.bind_eq_some_iff.1 hp
      obtain ⟨rfl, hf⟩ := presentAt_eq_some.1 he
      obtain ⟨l', hp', -⟩ := Option.map_eq_some_iff.1 hp
      cases ρ with
      | nil => exact absurd hw List.not_mem_nil
      | cons j ρ =>
        rw [List.length_cons, List.length_cons] at hl
        have hd : InSlots S (π ++ [i]) := by
          refine ⟨by rw [List.length_append, List.length_singleton]; omega, fun k hk => hS k ?_⟩
          cases π with
          | nil => exact hk
          | cons a π => exact hk
        refine ih (tableAt_child ht hd hf) ?_ (by simpa using hS) hp' w hw
        rw [List.length_append, List.length_singleton, List.length_cons]
        omega

theorem pml4_below (h : va < utop) : pml4 va ∈ {i : Idx | i ≠ 2} := by
  intro h2
  have h3 : (pml4 va).val = 2 := congrArg Fin.val h2
  rw [BitVec.lt_def, utop_toNat] at h
  rw [pml4, field_val] at h3
  omega

/-- The walk of a mapped address below `UTOP` only reads tables. -/
theorem Wf.walk_node (h : Wf R m fl) (hr : R (.env e) = some r) (hva : va < utop) {x : Translation}
    (hx : translate m r va = some x) : ∀ w ∈ walkWords m r (indices va), (tables R m).Node w.1 := by
  intro w hw
  rw [translate_eq] at hx
  obtain ⟨l, hl, -⟩ := Option.bind_eq_some_iff.1 hx
  obtain ⟨π', ht⟩ := walkWords_tables (S := {i | i ≠ 2}) tableAt_root (by simp [indices, path])
    (fun k hk => by cases hk; exact pml4_below hva) hl w hw
  rcases h.tableAt hr ht with ⟨-, h1⟩ | ⟨-, o, -, hto, -⟩
  · rw [h1]
    exact (root_at hr).node
  · exact hto.node

/-- **The frame of an environment** is apart from its tables: no mapping below `UTOP` refers to a
table. -/
theorem Wf.frameApart (h : Wf R m fl) (hr : R (.env e) = some r) : Apart m r (utfAddr rsp) 160 := by
  intro i hi j hj x y hx hy w hw hc
  have hlt : ∀ k < 160, utfAddr rsp + BitVec.ofNat 64 k < utop := by
    intro k hk
    have h1 := frameByte_toNat rsp hk
    have h2 := utfAddr_toNat rsp
    rw [BitVec.lt_def, utop_toNat]
    unfold frameByte at h1
    split at h2 <;> omega
  have hleaf : leafEntry m r (utfAddr rsp + BitVec.ofNat 64 i) = some x.pte := by
    unfold leafEntry
    rw [hx]
    rfl
  have hnn := (h.leaf _ x.pte (user_vpn (hlt i hi)) (h.leafEntry_view hr (hlt i hi) ▸ hleaf)).2.2
  rw [← hc] at hnn
  exact hnn (h.walk_node hr (hlt j hj) hy w hw)

end Jos
